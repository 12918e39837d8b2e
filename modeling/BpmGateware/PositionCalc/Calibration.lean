import BpmGateware.PositionCalc.Monit
import BpmGateware.PositionCalc.Multiplier

/-!
# Calibration by software

The calibration registers of `wb_pos_calc_regs`: a gain and an offset for each ADC channel and each
state of the RF switch. Each of them crosses from `clk_i` to `fs_clk_i` by a strobe of its own, and
`p_adc_offs_stage` takes them as they are at its edges, the offset at one edge and the gain at the
next. Whatever the order of the writes, what the multipliers apply is what software wrote, from the
tick on at which it sees the last write accepted.

## Main definitions

* `writesAt`, `writesGain`, `writesOffset`: the accesses that write a register
* `CalBank`, `CalCore`, `CalCore.tick`: the registers, the bank around them and the stage behind
  them
* `calWritten l`: what the accesses of the list `l` write

## Main results

* `cal_inForce`: with an acknowledge, the stage has what was written
* `calibrated_as_written`: the operands of the multipliers, from the bus on
-/

namespace PositionCalc

open Clocked

variable {w g : ℕ} {F : RecordFifo}

/-! ## The registers -/

/-- A write to the register of switch state `k` and ADC channel `n`, in a block of eight that starts
at `base` with those of state 0. -/
def writesAt (base : ℕ) (k : Bool) (n : Fin 4) (r : Access) : Bool :=
  r.we && decide (r.adr.toNat = base + 4 * k.toNat + n)

/-- A write to a gain register. -/
def writesGain (k : Bool) (n : Fin 4) : Access → Bool := writesAt 72 k n

/-- A write to an offset register. -/
def writesOffset (k : Bool) (n : Fin 4) : Access → Bool := writesAt 80 k n

/-- A write to one of the calibration registers. -/
def calibrates (r : Access) : Bool := r.we && decide (72 ≤ r.adr.toNat ∧ r.adr.toNat < 88)

/-- The bits of an offset. -/
def offsetField (v : BitVec 32) : BitVec 16 := v.extractLsb' 0 16

/-- `pos_calc_adc_chN_swclk_s_gain_data` and `pos_calc_adc_chN_swclk_s_offset_data`. -/
structure CalBank where
  gain : Bool → Fin 4 → AsyncRw (BitVec 32)
  offset : Bool → Fin 4 → AsyncRw (BitVec 16)

namespace CalBank

def reset : CalBank := ⟨fun _ _ => .reset 0, fun _ _ => .reset 0⟩

/-- The registers at a tick at which the bank does `m`. -/
def tick (s : CalBank) (m : Option (Move Access)) (fs : Bool) : CalBank where
  gain k n := (s.gain k n).tick (writesGain k n) (fun r => r.dat) m fs
  offset k n := (s.offset k n).tick (writesOffset k n) (fun r => offsetField r.dat) m fs

/-- The ports `regs_adc_chN_swclk_s_gain_data_o` and `regs_adc_chN_swclk_s_offset_data_o`. -/
def regs (s : CalBank) : CalibRegs where
  gain k n := (s.gain k n).out
  offset k n := (s.offset k n).out

end CalBank

/-- The bank with its access logic, the calibration registers, and `p_adc_offs_stage`. -/
structure CalCore (w g : ℕ) (F : RecordFifo) where
  bank : Monit w F
  cal : CalBank
  offs : AdcOffs 16 16 g

/-- The inputs at a tick: those of the bank, and what `bpm_swap` gives. -/
structure CalCoreIn (w : ℕ) where
  bank : MonitIn w
  swap : Export 16

/-- **One tick of the core**. -/
def CalCore.tick (s : CalCore w g F) (i : CalCoreIn w) : CalCore w g F where
  bank := s.bank.tick i.bank
  cal := if i.bank.rstN = false then .reset else s.cal.tick (s.bank.move i.bank) i.bank.fs
  offs := if i.bank.fs then exportStep s.cal.regs s.offs i.swap else s.offs

/-! ## What software has written -/

/-- What a list of accesses leaves in the calibration registers. -/
def calWritten (l : List Access) : CalibRegs where
  gain k n := l.foldl (rwExec (writesGain k n) fun r => r.dat) 0
  offset k n := l.foldl (rwExec (writesOffset k n) fun r => offsetField r.dat) 0

theorem calibrates_of_writesAt {base : ℕ} (hb : 72 ≤ base) (hb' : base ≤ 80) {k : Bool} {n : Fin 4}
    {r : Access} (h : writesAt base k n r = true) : calibrates r = true := by
  rw [writesAt, Bool.and_eq_true, decide_eq_true_iff] at h
  have := k.toNat_le
  rw [calibrates, h.1, Bool.true_and, decide_eq_true_iff]
  omega

/-- The calibration registers are acknowledged after three edges. -/
theorem latency_of_calibrates {r : Access} (h : calibrates r = true) : latency r = 3 := by
  rw [calibrates, Bool.and_eq_true, decide_eq_true_iff] at h
  unfold latency ackBit
  split_ifs <;> omega

/-! ## Runs -/

section Runs

variable (z : PowerUp w F) (a : AdcOffs 16 16 g) (inp : ℕ → CalCoreIn w)

/-- The core from reset on, its stage with `a` in its registers. -/
abbrev calRun (t : ℕ) : CalCore w g F := run CalCore.tick ⟨.start z, .reset, a⟩ inp t

/-- The inputs of the bank. -/
abbrev bankIn (t : ℕ) : MonitIn w := (inp t).bank

variable {z a inp} {t u T : ℕ} {r : Access}

theorem calRun_bank (t : ℕ) : (calRun z a inp t).bank = monitRun z (bankIn inp) t :=
  run_proj CalCore.bank (fun _ i => i.bank) (fun _ _ => rfl) _ inp t

variable (hrst : ∀ t, (inp t).bank.rstN = true)

include hrst

theorem calRun_cal_succ (t : ℕ) : (calRun z a inp (t + 1)).cal =
    (calRun z a inp t).cal.tick (slaveMove (inp t).bank.sys
      ((monitRun z (bankIn inp) t).gated (inp t).bank) (monitRun z (bankIn inp) t).regs.ack)
      (inp t).bank.fs := by
  rw [← calRun_bank (a := a), calRun, run_succ, CalCore.tick, if_neg (by simp [hrst t])]
  rfl

/-- **A register has at its port what software wrote** when an access is accepted, and up to the
next write. -/
theorem out_inForce {α : Type} {sel : Access → Bool} {val : Access → α} {v : α}
    {x : ℕ → AsyncRw α} (hx₀ : x 0 = .reset v)
    (hx : ∀ t, x (t + 1) = (x t).tick sel val (slaveMove (inp t).bank.sys
      ((monitRun z (bankIn inp) t).gated (inp t).bank) (monitRun z (bankIn inp) t).regs.ack)
      (inp t).bank.fs)
    (hsel : ∀ q, sel q = true → calibrates q = true) (hk : Keeps z (bankIn inp))
    (hp : Pace (fun t => (inp t).bank.sys) fun t => (inp t).bank.fs)
    (hT : accessDone z (bankIn inp) T = some r) (hTt : T ≤ t)
    (hno : ∀ y q, T ≤ y → y < t → accessTaken z (bankIn inp) y = some q → calibrates q = false) :
    (x t).out = (history (accessDone z (bankIn inp)) (T + 1)).foldl (rwExec sel val) v := by
  have hslave := monit_slave (z := z) hrst
  have hdone : accessDone z (bankIn inp) = accepted (fun t => (inp t).bank.sys)
      (fun t => (monitRun z (bankIn inp) t).gated (inp t).bank)
      fun t => (monitRun z (bankIn inp) t).regs.ack := hslave.accepted_gate.symm
  rw [hdone] at hT ⊢
  apply AsyncRw.out_of_accepted hslave hx₀ hx ?_ hp (Keeps.gated hrst hk) hT hTt
  · intro y hTy hyt q hq
    by_contra hw
    have hcal := hno y q hTy hyt hq
    rw [hsel q (by simpa using hw)] at hcal
    cases hcal
  · intro q hq
    rw [latency_of_calibrates (hsel q hq)]

/-- **The stage has what software wrote**, in all sixteen registers. -/
theorem cal_inForce (hk : Keeps z (bankIn inp))
    (hp : Pace (fun t => (inp t).bank.sys) fun t => (inp t).bank.fs)
    (hT : accessDone z (bankIn inp) T = some r) (hTt : T ≤ t)
    (hno : ∀ y q, T ≤ y → y < t → accessTaken z (bankIn inp) y = some q → calibrates q = false) :
    (calRun z a inp t).cal.regs = calWritten (history (accessDone z (bankIn inp)) (T + 1)) := by
  rw [CalBank.regs, calWritten, CalibRegs.mk.injEq]
  constructor
  · funext k n
    exact out_inForce hrst (x := fun t => (calRun z a inp t).cal.gain k n) rfl
      (fun t => by rw [calRun_cal_succ hrst]; rfl)
      (fun q => calibrates_of_writesAt le_rfl (by omega)) hk hp hT hTt hno
  · funext k n
    exact out_inForce hrst (x := fun t => (calRun z a inp t).cal.offset k n) rfl
      (fun t => by rw [calRun_cal_succ hrst]; rfl)
      (fun q => calibrates_of_writesAt (by omega) le_rfl) hk hp hT hTt hno

/-- **The multipliers apply what software wrote**: take an access that is accepted at tick `T`, and
two edges of `fs_clk_i` in a row after it, before another calibration register is written. The
operands after the second edge are those of the sample at the first one, with the offset and the
gain that the accesses accepted up to `T` have written for its tag. -/
theorem calibrated_as_written (hk : Keeps z (bankIn inp))
    (hp : Pace (fun t => (inp t).bank.sys) fun t => (inp t).bank.fs)
    (hT : accessDone z (bankIn inp) T = some r) {x y : ℕ} (hTx : T ≤ x)
    (hxy : Consecutive (fun t => (inp t).bank.fs) x y)
    (hno : ∀ u q, T ≤ u → u < y → accessTaken z (bankIn inp) u = some q → calibrates q = false)
    (ch : Fin 4) :
    (calRun z a inp (y + 1)).offs.mult ch =
      ⟨dspChans (inp x).swap.ch ch -
          (calWritten (history (accessDone z (bankIn inp)) (T + 1))).offset (inp x).swap.tag ch,
        (calWritten (history (accessDone z (bankIn inp)) (T + 1))).gainTop g (inp x).swap.tag ch,
        (inp x).swap.tag, (inp x).swap.valid⟩ := by
  obtain ⟨hfx, hfy, hlt, hfree⟩ := hxy
  have hstep : ∀ t, (calRun z a inp (t + 1)).offs = if (inp t).bank.fs then
      exportStep (calRun z a inp t).cal.regs (calRun z a inp t).offs (inp t).swap
      else (calRun z a inp t).offs := fun t => rfl
  have hhold : (calRun z a inp y).offs = (calRun z a inp (x + 1)).offs := by
    apply hold_between (g := fun t => (calRun z a inp t).offs) hlt
    intro t hxt hty
    rw [hstep, if_neg]
    simpa using hfree t hxt hty
  have hcal : ∀ t, T ≤ t → t ≤ y → (calRun z a inp t).cal.regs =
      calWritten (history (accessDone z (bankIn inp)) (T + 1)) := fun t hTt hty =>
    cal_inForce hrst hk hp hT hTt fun u q hu hut => hno u q hu (by omega)
  rw [hstep y, if_pos hfy, hcal y (by omega) le_rfl, hhold, hstep x, if_pos hfx,
    hcal x hTx hlt.le, exportStep, stage_two, exportStep]
  obtain ⟨hd, hoff, htag, hvalid⟩ := stage_one (calRun z a inp x).offs
    ((inp x).swap.adcIn (calWritten (history (accessDone z (bankIn inp)) (T + 1))) g)
  rw [hd, hoff, htag, hvalid]
  simp only [Export.adcIn, CalibRegs.calib_set, BitVec.signExtend_eq]

/-- Software writes the gain of ADC channel 3 for switch state 0. -/
def gainScript (t : ℕ) : Option Access :=
  if t < 2 then none else if t < 7 then some ⟨true, 75, 0x40000000⟩ else none

/-- The samples of the script have the numbers of their channels. -/
def calScript (t : ℕ) : CalCoreIn 32 := ⟨monitScript gainScript t, ⟨numbered, false, true⟩⟩

omit hrst in
theorem calScript_keeps : Keeps PowerUp.zero (bankIn calScript) := by
  apply patient_of_finite (m := 7)
  · intro t ht
    have hnone : gainScript t = none := by
      unfold gainScript
      rw [if_neg (by omega), if_neg (by omega)]
    exact (Bus.req_ofReq (gainScript t)).trans hnone
  · decide +kernel

omit hrst in
/-- Two cycles after the write is accepted, the multiplier of channel 3 has the gain. -/
theorem calScript_gain :
    ((calRun PowerUp.zero AdcOffs.idle calScript 8).offs.mult (Fin.last 3)).b =
      (0x800000 : BitVec 25) := by
  have hno : ∀ u < 7, 6 ≤ u → ∀ q ∈ accessTaken PowerUp.zero (bankIn calScript) u,
      calibrates q = false := by decide +kernel
  rw [@calibrated_as_written 32 25 _ PowerUp.zero AdcOffs.idle calScript 6 ⟨true, 75, 0x40000000⟩
    (fun _ => rfl) calScript_keeps (fun _ y h => ⟨y, h.2.2.1, le_rfl, rfl⟩) (by decide +kernel) 6 7
    le_rfl ⟨rfl, rfl, by omega, fun u hu hu' => absurd hu (by omega)⟩
    (fun u q hu hu' hq => hno u hu' hu q hq) (Fin.last 3)]
  decide +kernel

end Runs

end PositionCalc
