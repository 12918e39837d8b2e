import BpmGateware.Clocked.Component

/-!
# The orbit interlock

The `ref_clk` part of `orbit_intlk`: the minimum-sum gate, the translation and angle detectors
of `orbit_intlk_trans` and `orbit_intlk_ang`, and the general latch of `p_out`. Samples reach it
already synchronised, as one downstream (DS) and one upstream (US) position record with its
valid. A `std_logic` is a `Bool`, a `std_logic_vector` a `BitVec`; the two width generics
`g_DECIM_WIDTH` and `g_INTLK_LMT_WIDTH` meet in one adder and are one width `w`. The adders
`gc_big_adder2` are instances of `Clocked.Adder`, of latency two.

The generate loops run up to `c_INTLK_GEN_UPTO_CHANNEL = c_CHAN_Y_IDX`: over the axes X and Y in
the detectors, and, with the same bound, over the two BPMs in the sum gate.

## Main definitions

* `Thold`, `tholdStep`: the two comparators of a channel, their registers and `p_latch`
* `SumStage`, `sumStep`: the first adder of a channel and its result registers
* `TransChan`, `transStep`: one channel of `orbit_intlk_trans`
* `AngChan`, `angStep`: one channel of `orbit_intlk_ang`
* `State`, `step`: `orbit_intlk`; `State.powerUp`: its registers at power-up
* `State.det`, `State.latched`, `State.level`: the registers of the eight per-axis flags
* `Flags`, `State.flags`: the flag outputs

## Main results

* `latched_step`, `level_step`: what one edge does to a flag
* `level_step_reset`: the reset branches leave the level registers alone
-/

namespace OrbitIntlk

open Clocked

/-- `gc_big_adder2`: sum, carry and valid two edges after the operands. -/
abbrev GcBigAdder2 (w : ℕ) := Adder w 2

/-- The channels that have interlock logic. -/
inductive Axis
  | x
  | y
  deriving DecidableEq, Repr

/-- The two monitors of a section. -/
inductive Bpm
  | ds
  | us
  deriving DecidableEq, Repr

variable {w : ℕ}

/-- One decimated position record. -/
structure Sample (w : ℕ) where
  x : BitVec w
  y : BitVec w
  q : BitVec w
  sum : BitVec w
  deriving DecidableEq, Repr

/-- The word of `decim_pos_array` that the loop index selects. -/
def Sample.pos (p : Sample w) : Axis → BitVec w
  | .x => p.x
  | .y => p.y

/-! ## Latches -/

/-- A status latch of `p_latch` or `p_out`: clear wins over set, reset over both. -/
def ltcNext (rstN clr set ltc : Bool) : Bool :=
  if rstN = false then false else if clr then false else if set then true else ltc

/-- A level flag of `p_latch`: it follows the detection while enabled. The reset branch does not
assign it. -/
def levelNext (rstN clr en det level : Bool) : Bool :=
  if rstN = false then level else if clr || !en then false else det

/-! ## The threshold detector of one channel -/

section Detectors

variable (A : GcBigAdder2 w)

/-- The registers behind the value of one channel: `cmp_*_thold_bigger` and
`cmp_*_thold_smaller`, their result registers, and the registers of `p_latch`. -/
structure Thold where
  biggerAdder : A.State
  smallerAdder : A.State
  /-- `trans_bigger_reg`, `ang_bigger_reg` -/
  biggerReg : Bool
  smallerReg : Bool
  /-- `trans_intlk_bigger_ltc_all`, `ang_intlk_bigger_ltc_all` -/
  biggerLtc : Bool
  smallerLtc : Bool
  /-- `trans_intlk_bigger_all`, `ang_intlk_bigger_all` -/
  bigger : Bool
  smaller : Bool

/-- What a threshold detector samples at one edge. -/
structure TholdIn (w : ℕ) where
  rstN : Bool
  /-- the gated enable of the detector -/
  en : Bool
  clr : Bool
  max : BitVec w
  min : BitVec w
  value : BitVec w
  valid : Bool

variable {A}

/-- `trans_bigger`, `ang_bigger`: the comparator result with its sign correction. -/
def Thold.biggerComb (s : Thold A) (i : TholdIn w) : Bool :=
  signedGe (A.carry s.biggerAdder) i.value.msb i.max.msb

/-- `trans_smaller`, `ang_smaller`. -/
def Thold.smallerComb (s : Thold A) (i : TholdIn w) : Bool :=
  signedLe (A.carry s.smallerAdder) i.value.msb i.min.msb

/-- One edge of the comparators, their result registers and `p_latch`. -/
def tholdStep (s : Thold A) (i : TholdIn w) : Thold A where
  -- `A + (-B)` with the carry input high: the carry out is `A >= B` for equal signs
  biggerAdder := A.step s.biggerAdder ⟨i.valid, i.value, ~~~i.max, true⟩
  smallerAdder := A.step s.smallerAdder ⟨i.valid, ~~~i.value, i.min, true⟩
  -- the sign correction reads the value of this cycle, the carry is two edges old
  biggerReg :=
    if i.rstN = false then false
    else if A.valid s.biggerAdder then s.biggerComb i else s.biggerReg
  smallerReg :=
    if i.rstN = false then false
    else if A.valid s.smallerAdder then s.smallerComb i else s.smallerReg
  biggerLtc := ltcNext i.rstN i.clr (s.biggerReg && i.en) s.biggerLtc
  smallerLtc := ltcNext i.rstN i.clr (s.smallerReg && i.en) s.smallerLtc
  bigger := levelNext i.rstN i.clr i.en s.biggerReg s.bigger
  smaller := levelNext i.rstN i.clr i.en s.smallerReg s.smaller

/-! ## The two detectors -/

variable (A)

/-- The first adder of a channel and the registers of `p_trans_reg`, `p_ang_reg`. -/
structure SumStage where
  /-- `cmp_trans_adder`, `cmp_ang_adder` -/
  adder : A.State
  sumReg : BitVec w
  sumValidReg : Bool

/-- What a sum stage samples at one edge. -/
structure SumIn (w : ℕ) where
  rstN : Bool
  op : AdderIn w

variable {A}

/-- One edge of the first adder and of its result registers; the reset branch leaves the sum. -/
def sumStep (s : SumStage A) (i : SumIn w) : SumStage A where
  adder := A.step s.adder i.op
  sumReg := if i.rstN && A.valid s.adder then A.sum s.adder else s.sumReg
  sumValidReg := i.rstN && A.valid s.adder

/-- What one channel of a detector samples at one edge; `valid` is the conjunction of the DS and
the US valid. -/
structure ChanIn (w : ℕ) where
  rstN : Bool
  en : Bool
  clr : Bool
  max : BitVec w
  min : BitVec w
  us : BitVec w
  ds : BitVec w
  valid : Bool

/-- The operands of `cmp_trans_adder`: `us + ds`. -/
def ChanIn.transSum (i : ChanIn w) : SumIn w := ⟨i.rstN, i.valid, i.us, i.ds, false⟩

/-- The operands of `cmp_ang_adder`: `ds - us`, as `ds + not us + 1`. -/
def ChanIn.angSum (i : ChanIn w) : SumIn w := ⟨i.rstN, i.valid, i.ds, ~~~i.us, true⟩

/-- The ports of the comparators of a channel, behind the value it computed. -/
def ChanIn.thold (i : ChanIn w) (value : BitVec w) (valid : Bool) : TholdIn w where
  rstN := i.rstN
  en := i.en
  clr := i.clr
  max := i.max
  min := i.min
  value := value
  valid := valid

variable (A)

/-- One channel of `orbit_intlk_trans`. -/
structure TransChan where
  sum : SumStage A
  trans : BitVec w
  transValid : Bool
  thold : Thold A

/-- One channel of `orbit_intlk_ang`. -/
structure AngChan where
  sum : SumStage A
  thold : Thold A

variable {A}

/-- One edge of a translation channel. `p_trans_divide` halves the sum by an arithmetic shift. -/
def transStep (s : TransChan A) (i : ChanIn w) : TransChan A where
  sum := sumStep s.sum i.transSum
  trans := if i.rstN && s.sum.sumValidReg then s.sum.sumReg.sshiftRight 1 else s.trans
  transValid := i.rstN && s.sum.sumValidReg
  thold := tholdStep s.thold (i.thold s.trans s.transValid)

/-- One edge of an angle channel: the difference is compared as it leaves `p_ang_reg`. -/
def angStep (s : AngChan A) (i : ChanIn w) : AngChan A where
  sum := sumStep s.sum i.angSum
  -- `ang <= ang_sum_reg` and `ang_valid <= ang_sum_valid_reg` are wires
  thold := tholdStep s.thold (i.thold s.sum.sumReg s.sum.sumValidReg)

end Detectors

/-! ## The interlock -/

/-- The settings software holds: enables, limits and the minimum sum. -/
structure Config (w : ℕ) where
  intlkEn : Bool
  minSumEn : Bool
  minSum : BitVec w
  transEn : Bool
  transMax : Axis → BitVec w
  transMin : Axis → BitVec w
  angEn : Bool
  angMax : Axis → BitVec w
  angMin : Axis → BitVec w

/-- The inputs of `orbit_intlk` at one `ref_clk` edge, after the clock-domain crossing. -/
structure Input (w : ℕ) where
  rstN : Bool
  cfg : Config w
  clr : Bool
  transClr : Bool
  angClr : Bool
  ds : Sample w
  us : Sample w
  dsValid : Bool
  usValid : Bool

/-- `decim_pos_sum_array`. -/
def Input.sumOf (i : Input w) : Bpm → BitVec w
  | .ds => i.ds.sum
  | .us => i.us.sum

/-- `decim_pos_valid_array`. -/
def Input.validOf (i : Input w) : Bpm → Bool
  | .ds => i.dsValid
  | .us => i.usValid

/-- `decim_pos_valid`: the valids ANDed over the BPMs. -/
def Input.posValid (i : Input w) : Bool := i.dsValid && i.usValid

variable (A : GcBigAdder2 w)

/-- The registers of `orbit_intlk` in the `ref_clk` domain. -/
structure State where
  /-- the adders of `gen_sum_intlk` -/
  sumAdder : Bpm → A.State
  sumBiggerReg : Bpm → Bool
  sumBiggerAny : Bool
  transMasterEn : Bool
  angMasterEn : Bool
  trans : Axis → TransChan A
  ang : Axis → AngChan A
  intlkLtc : Bool
  intlk : Bool

variable {A}

/-- `intlk_sum_bigger_en`. -/
def State.sumBiggerEn (s : State A) (i : Input w) : Bool :=
  if i.cfg.minSumEn = false then true else s.sumBiggerAny

/-- The ports of one channel of `cmp_orbit_intlk_trans`. -/
def State.transIn (s : State A) (i : Input w) (a : Axis) : ChanIn w where
  rstN := i.rstN
  en := s.transMasterEn
  clr := i.transClr
  max := i.cfg.transMax a
  min := i.cfg.transMin a
  us := i.us.pos a
  ds := i.ds.pos a
  valid := i.posValid

/-- The ports of one channel of `cmp_orbit_intlk_ang`. -/
def State.angIn (s : State A) (i : Input w) (a : Axis) : ChanIn w where
  rstN := i.rstN
  en := s.angMasterEn
  clr := i.angClr
  max := i.cfg.angMax a
  min := i.cfg.angMin a
  us := i.us.pos a
  ds := i.ds.pos a
  valid := i.posValid

/-- The merged flags of a detector: an OR over the two channels. -/
def orAxes (f : Axis → Bool) : Bool := f .x || f .y

/-- `intlk_trans`: any level flag of the translation detector. -/
def State.intlkTrans (s : State A) : Bool :=
  orAxes (fun a => (s.trans a).thold.bigger) || orAxes (fun a => (s.trans a).thold.smaller)

/-- `intlk_ang`: any level flag of the angle detector. -/
def State.intlkAng (s : State A) : Bool :=
  orAxes (fun a => (s.ang a).thold.bigger) || orAxes (fun a => (s.ang a).thold.smaller)

/-- `intlk_all`. -/
def State.intlkAll (s : State A) (i : Input w) : Bool :=
  (s.intlkTrans || s.intlkAng) && i.cfg.intlkEn

/-- **One `ref_clk` edge of `orbit_intlk`**. -/
def step (s : State A) (i : Input w) : State A where
  sumAdder b := A.step (s.sumAdder b) ⟨i.validOf b, i.sumOf b, ~~~i.cfg.minSum, true⟩
  sumBiggerReg b :=
    if i.rstN = false then false
    else if A.valid (s.sumAdder b) then A.carry (s.sumAdder b) else s.sumBiggerReg b
  sumBiggerAny := i.rstN && (s.sumBiggerReg .ds || s.sumBiggerReg .us)
  -- the enables of the detectors are gated one register after `intlk_sum_bigger_any`
  transMasterEn := i.rstN && (i.cfg.transEn && s.sumBiggerEn i)
  angMasterEn := i.rstN && (i.cfg.angEn && s.sumBiggerEn i)
  trans a := transStep (s.trans a) (s.transIn i a)
  ang a := angStep (s.ang a) (s.angIn i a)
  -- `p_out`, one edge after `p_latch` of the detectors
  intlkLtc := ltcNext i.rstN i.clr (s.intlkAll i) s.intlkLtc
  intlk :=
    if i.rstN = false then false
    else if i.clr || !i.cfg.intlkEn then false
    else s.intlkAll i

/-- The registers of a threshold detector at power-up. -/
def Thold.powerUp (a : A.State) : Thold A := ⟨a, a, false, false, false, false, false, false⟩

/-- Power-up: the registers of the design are `'0'`, the cores hold `a`. -/
def State.powerUp (a : A.State) : State A where
  sumAdder _ := a
  sumBiggerReg _ := false
  sumBiggerAny := false
  transMasterEn := false
  angMasterEn := false
  trans _ := ⟨⟨a, 0, false⟩, 0, false, Thold.powerUp a⟩
  ang _ := ⟨⟨a, 0, false⟩, Thold.powerUp a⟩
  intlkLtc := false
  intlk := false

/-! ## The eight per-axis flags -/

/-- The two detectors. -/
inductive Detector
  | trans
  | ang
  deriving DecidableEq, Repr

/-- The two limits of a detector. -/
inductive Side
  | bigger
  | smaller
  deriving DecidableEq, Repr

/-- The comparator and latch registers of one channel of a detector. -/
def State.thold (s : State A) (a : Axis) : Detector → Thold A
  | .trans => (s.trans a).thold
  | .ang => (s.ang a).thold

/-- The gated enable of a detector. -/
def State.masterEn (s : State A) : Detector → Bool
  | .trans => s.transMasterEn
  | .ang => s.angMasterEn

/-- The clear input of a detector. -/
def Input.clrOf (i : Input w) : Detector → Bool
  | .trans => i.transClr
  | .ang => i.angClr

/-- The detection register of a flag. -/
def State.det (s : State A) (d : Detector) (a : Axis) : Side → Bool
  | .bigger => (s.thold a d).biggerReg
  | .smaller => (s.thold a d).smallerReg

/-- The latched register of a flag. -/
def State.latched (s : State A) (d : Detector) (a : Axis) : Side → Bool
  | .bigger => (s.thold a d).biggerLtc
  | .smaller => (s.thold a d).smallerLtc

/-- The level register of a flag. -/
def State.level (s : State A) (d : Detector) (a : Axis) : Side → Bool
  | .bigger => (s.thold a d).bigger
  | .smaller => (s.thold a d).smaller

/-- The edges that set a per-axis latch: a detection while the detector is enabled. -/
def State.sets (s : State A) (d : Detector) (a : Axis) (k : Side) : Bool :=
  s.det d a k && s.masterEn d

/-- **One edge of a latched flag**. -/
theorem latched_step (s : State A) (i : Input w) (d : Detector) (a : Axis) (k : Side) :
    (step s i).latched d a k = ltcNext i.rstN (i.clrOf d) (s.sets d a k) (s.latched d a k) := by
  cases d <;> cases k <;> rfl

/-- **One edge of a level flag**. -/
theorem level_step (s : State A) (i : Input w) (d : Detector) (a : Axis) (k : Side) :
    (step s i).level d a k =
      levelNext i.rstN (i.clrOf d) (s.masterEn d) (s.det d a k) (s.level d a k) := by
  cases d <;> cases k <;> rfl

theorem exists_axis {P : Axis → Prop} : (∃ a, P a) ↔ P .x ∨ P .y :=
  ⟨fun ⟨a, h⟩ => by cases a <;> simp [h], fun h => h.elim (⟨_, ·⟩) (⟨_, ·⟩)⟩

theorem exists_side {P : Side → Prop} : (∃ k, P k) ↔ P .bigger ∨ P .smaller :=
  ⟨fun ⟨k, h⟩ => by cases k <;> simp [h], fun h => h.elim (⟨_, ·⟩) (⟨_, ·⟩)⟩

theorem exists_detector {P : Detector → Prop} : (∃ d, P d) ↔ P .trans ∨ P .ang :=
  ⟨fun ⟨d, h⟩ => by cases d <;> simp [h], fun h => h.elim (⟨_, ·⟩) (⟨_, ·⟩)⟩

theorem orAxes_eq_true {f : Axis → Bool} : orAxes f = true ↔ ∃ a, f a = true := by
  rw [exists_axis, orAxes, Bool.or_eq_true]

/-! ## Outputs -/

/-- The flag outputs of one detector. -/
structure DetectorFlags where
  biggerAxis : Axis → Bool
  biggerLtcAxis : Axis → Bool
  smallerAxis : Axis → Bool
  smallerLtcAxis : Axis → Bool
  biggerLtc : Bool
  /-- also the `_any` output -/
  bigger : Bool
  smallerLtc : Bool
  smaller : Bool
  ltc : Bool
  intlk : Bool

/-- The per-axis flags of a detector and their merging. -/
def detectorFlags (t : Axis → Thold A) : DetectorFlags where
  biggerAxis a := (t a).bigger
  biggerLtcAxis a := (t a).biggerLtc
  smallerAxis a := (t a).smaller
  smallerLtcAxis a := (t a).smallerLtc
  biggerLtc := orAxes fun a => (t a).biggerLtc
  bigger := orAxes fun a => (t a).bigger
  smallerLtc := orAxes fun a => (t a).smallerLtc
  smaller := orAxes fun a => (t a).smaller
  ltc := (orAxes fun a => (t a).biggerLtc) || orAxes fun a => (t a).smallerLtc
  intlk := (orAxes fun a => (t a).bigger) || orAxes fun a => (t a).smaller

/-- The flag outputs of `orbit_intlk`. -/
structure Flags where
  trans : DetectorFlags
  ang : DetectorFlags
  sumBiggerAny : Bool
  intlkLtc : Bool
  intlk : Bool

def State.flags (s : State A) : Flags where
  trans := detectorFlags fun a => (s.trans a).thold
  ang := detectorFlags fun a => (s.ang a).thold
  sumBiggerAny := s.sumBiggerAny
  intlkLtc := s.intlkLtc
  intlk := s.intlk

/-! ## The level flags and the reset -/

/-- A trip of one detector: any of its level flags. -/
def State.intlkOf (s : State A) (d : Detector) : Bool :=
  orAxes (fun a => s.level d a .bigger) || orAxes fun a => s.level d a .smaller

/-- All eight level registers are down. -/
def State.LevelsDown (s : State A) : Prop := ∀ d a k, s.level d a k = false

theorem intlkOf_eq_true {s : State A} {d : Detector} :
    s.intlkOf d = true ↔ ∃ a k, s.level d a k = true := by
  simp only [State.intlkOf, Bool.or_eq_true, orAxes_eq_true, ← exists_or, exists_side]

/-- `intlk_trans or intlk_ang` -/
theorem exists_intlkOf {s : State A} :
    (s.intlkTrans || s.intlkAng) = true ↔ ∃ d, s.intlkOf d = true := by
  rw [Bool.or_eq_true, exists_detector]
  rfl

theorem levelsDown_iff {s : State A} : s.LevelsDown ↔ (s.intlkTrans || s.intlkAng) = false := by
  rw [← Bool.not_eq_true, exists_intlkOf]
  simp only [intlkOf_eq_true, State.LevelsDown, not_exists, Bool.not_eq_true]

theorem powerUp_levelsDown (a : A.State) : (State.powerUp a).LevelsDown :=
  fun d _ k => by cases d <;> cases k <;> rfl

theorem levelNext_reset (clr en det level : Bool) : levelNext false clr en det level = level := rfl

/-- **The reset branch leaves the level registers as they are**. -/
theorem level_step_reset (s : State A) {i : Input w} (hr : i.rstN = false) :
    (step s i).level = s.level := by
  funext d a k
  rw [level_step, hr, levelNext_reset]

theorem level_run_reset (s : State A) {inp : ℕ → Input w} {n : ℕ}
    (hr : ∀ t < n, (inp t).rstN = false) {t : ℕ} (ht : t ≤ n) :
    (run step s inp t).level = s.level := by
  induction t with
  | zero => rfl
  | succ t ih => rw [run_succ, level_step_reset _ (hr t (by omega)), ih (by omega)]

end OrbitIntlk
