import Mathlib.Data.BitVec
import BpmGateware.Clocked.Run
import BpmGateware.Clocked.Systolic

/-!
# The high-pass filter of the ADC input

`hpf_adcinput`: a systolic FIR filter of thirteen taps, one `DSP48E1` slice each. The first slice
sits in `mac1reg`, with one B register and no cascade input, the others in `mac2reg`, with two B
registers behind `BCIN` and the sum of the slice before on `PCIN`. The slice is known by its
documented behaviour only, for the attributes the two modules set. Neither `ce_i` nor `rst_n_i`
reaches it.

## Main definitions

* `Dsp48e1 breg casc`: a slice with `breg` B registers, with or without the cascade input
* `mac1reg`, `mac2reg`: one edge of the two kinds of taps
* `tap`, `coef`: the coefficients
* `State`, `step`: `hpf_adcinput`; `State.dataO`: its output
-/

namespace HpfAdcinput

open Clocked

/-! ## The slice -/

/-- What a slice samples at one edge: `A`, `B` or `BCIN` as `B_INPUT` says, and `PCIN`. -/
structure DspIn where
  a : BitVec 30
  b : BitVec 18
  pcin : BitVec 48

/-- The multiplier: 25 of the 30 bits of port A by the 18 bits of port B, with sign. -/
def product (a : BitVec 30) (b : BitVec 18) : BitVec 48 :=
  (a.setWidth 25).signExtend 48 * b.signExtend 48

/-- **A `DSP48E1` slice** with `breg` B registers, one A register, and the registers M and P. The
sum takes in `PCIN` if `casc`. Its registers are zero at power-up; from any other state the laws
hold once the state has gone through. -/
structure Dsp48e1 (breg : ℕ) (casc : Bool) where
  /-- the registers inside the slice -/
  State : Type
  powerUp : State
  step : State → DspIn → State
  /-- `BCOUT` -/
  bcout : State → BitVec 18
  /-- `P`, and `PCOUT` -/
  p : State → BitVec 48
  bcout_run : ∀ s inp t, breg ≤ t ∨ s = powerUp →
    bcout (run step s inp t) = past (fun t => (inp t).b) t breg
  p_run : ∀ s inp t, breg + 1 ≤ t ∨ s = powerUp →
    p (run step s inp (t + 1)) =
      product (inp (t - 2)).a (past (fun t => (inp t).b) t (breg + 1)) +
        if casc then (inp t).pcin else 0
  p_powerUp : p powerUp = 0

/-- The registers of a slice, as its data sheet draws them. -/
structure DspRegs where
  a : BitVec 30
  b1 : BitVec 18
  b2 : BitVec 18
  m : BitVec 48
  p : BitVec 48

theorem product_zero (a : BitVec 30) : product a 0 = 0 := by simp [product]

/-- The slice of `mac1reg`, register by register. -/
def Dsp48e1.oneB : Dsp48e1 1 false where
  State := DspRegs
  powerUp := ⟨0, 0, 0, 0, 0⟩
  step s i := ⟨i.a, i.b, 0, product s.a s.b1, s.m⟩
  bcout s := s.b1
  p s := s.p
  bcout_run
    | s, _, 0, h => by
      obtain rfl : s = _ := h.resolve_left (by omega)
      rfl
    | _, _, _ + 1, _ => by
      rw [past_of_le (by omega)]
      rfl
  p_run
    | s, _, 0, h | s, _, 1, h => by
      obtain rfl : s = _ := h.resolve_left (by omega)
      rw [past_of_lt (by omega), product_zero]
      rfl
    | _, _, _ + 2, _ => by
      rw [past_of_le (by omega)]
      exact (BitVec.add_zero _).symm
  p_powerUp := rfl

/-- The slice of `mac2reg`, register by register. -/
def Dsp48e1.twoB : Dsp48e1 2 true where
  State := DspRegs
  powerUp := ⟨0, 0, 0, 0, 0⟩
  step s i := ⟨i.a, i.b, s.b1, product s.a s.b2, s.m + i.pcin⟩
  bcout s := s.b2
  p s := s.p
  bcout_run
    | s, _, 0, h | s, _, 1, h => by
      obtain rfl : s = _ := h.resolve_left (by omega)
      rfl
    | _, _, _ + 2, _ => by
      rw [past_of_le (by omega)]
      rfl
  p_run
    | s, _, 0, h | s, _, 1, h | s, _, 2, h => by
      obtain rfl : s = _ := h.resolve_left (by omega)
      rw [past_of_lt (by omega), product_zero]
      simp only [run, product_zero]
      rfl
    | _, _, _ + 3, _ => by
      rw [past_of_le (by omega)]
      rfl
  p_powerUp := rfl

/-! ## The taps -/

/-- One edge of `mac1reg`: the coefficient goes to port A, extended to its 30 bits. -/
def mac1reg (D : Dsp48e1 1 false) (s : D.State) (data : BitVec 18) (coef : BitVec 25) : D.State :=
  D.step s ⟨coef.signExtend 30, data, 0⟩

/-- One edge of `mac2reg`. -/
def mac2reg (D : Dsp48e1 2 true) (s : D.State) (data : BitVec 18) (coef : BitVec 25)
    (casc : BitVec 48) : D.State :=
  D.step s ⟨coef.signExtend 30, data, casc⟩

/-- The coefficients as the source lists them. -/
def taps : List ℤ :=
  [186968, 363532, 192469, -714736, -2294800, -3865066, 12250263,
    -3865066, -2294800, -714736, 192469, 363532, 186968]

/-- The coefficient of tap `i`. -/
def tap (i : ℕ) : ℤ := taps.getD i 0

/-- `conv_std_logic_vector` of a coefficient. -/
def coef (i : ℕ) : BitVec 25 := BitVec.ofInt 25 (tap i)

/-! ## The filter -/

variable (D₁ : Dsp48e1 1 false) (D₂ : Dsp48e1 2 true)

/-- The registers of `hpf_adcinput`: those of its slices. -/
structure State where
  /-- `cmp_mac_first` -/
  first : D₁.State
  /-- `gen_mac_cascade`, and `cmp_mac_last` -/
  macs : Fin 12 → D₂.State

variable {D₁ D₂}

/-- `data`, the samples on their way from tap to tap. -/
def State.data (s : State D₁ D₂) : Fin 13 → BitVec 18
  | ⟨0, _⟩ => D₁.bcout s.first
  | ⟨i + 1, h⟩ => D₂.bcout (s.macs ⟨i, by omega⟩)

/-- `cascade`, the partial sums; the last is `data_full`. -/
def State.cascade (s : State D₁ D₂) : Fin 13 → BitVec 48
  | ⟨0, _⟩ => D₁.p s.first
  | ⟨i + 1, h⟩ => D₂.p (s.macs ⟨i, by omega⟩)

/-- **One edge of `hpf_adcinput`**. -/
def step (s : State D₁ D₂) (dataI : BitVec 16) : State D₁ D₂ where
  -- `data_se` is the input extended by its sign
  first := mac1reg D₁ s.first (dataI.signExtend 18) (coef 0)
  macs i := mac2reg D₂ (s.macs i) (s.data i.castSucc) (coef (i + 1)) (s.cascade i.castSucc)

/-- `data_full` -/
def State.dataFull (s : State D₁ D₂) : BitVec 48 := s.cascade (Fin.last 12)

/-- `data_o`: 7 bits are dropped at the top and 25 at the bottom. -/
def State.dataO (s : State D₁ D₂) : BitVec 16 := s.dataFull.extractLsb' 25 16

/-- The filter at power-up. -/
def State.powerUp : State D₁ D₂ := ⟨D₁.powerUp, fun _ => D₂.powerUp⟩

end HpfAdcinput
