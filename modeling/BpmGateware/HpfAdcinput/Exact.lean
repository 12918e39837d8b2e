import Mathlib.Algebra.BigOperators.Ring.Finset
import Mathlib.Algebra.Order.BigOperators.Group.Finset
import BpmGateware.HpfAdcinput.Basic

/-!
# The filter is exact

The data move two registers per tap and the partial sums one, so the sum that leaves the last tap is
that of thirteen consecutive samples, the newest fifteen cycles old. It is formed in 48 bits, of
which a sum of this filter needs 41, so the seven bits that `data_o` drops at the top are copies of
the sign. All of this holds from any state of the registers once it has gone through, and from the
first cycle on if they start at zero.

## Main definitions

* `partialSum x t i`: the sum of tap `i` at cycle `t`, as an integer
* `peak`, `trough`: the largest and the smallest contribution of a tap

## Main results

* `data_run`, `cascade_succ`: the two speeds of the cascade
* `cascade_toInt`: every partial sum is the integer one
* `slice_toInt`: what the output loses and what it keeps
* `hpf_exact`: the output of the filter
-/

namespace HpfAdcinput

open Clocked

variable {D₁ : Dsp48e1 1 false} {D₂ : Dsp48e1 2 true}

/-! ## The slices in the filter -/

section Slices

variable (s : State D₁ D₂) (x : ℕ → BitVec 16)

theorem run_first (t : ℕ) :
    (run step s x t).first = run D₁.step s.first
      (fun t => ⟨(coef 0).signExtend 30, (x t).signExtend 18, 0⟩) t :=
  run_proj State.first (fun _ v => (⟨(coef 0).signExtend 30, v.signExtend 18, 0⟩ : DspIn))
    (fun _ _ => rfl) s x t

theorem run_macs (i : Fin 12) (t : ℕ) :
    (run step s x t).macs i = run D₂.step (s.macs i)
      (fun t => ⟨(coef (i + 1)).signExtend 30, (run step s x t).data i.castSucc,
        (run step s x t).cascade i.castSucc⟩) t :=
  run_proj (fun s : State D₁ D₂ => s.macs i)
    (fun s _ => (⟨(coef (i + 1)).signExtend 30, s.data i.castSucc, s.cascade i.castSucc⟩ : DspIn))
    (fun _ _ => rfl) s x t

variable {s}

/-- **The data move two registers per tap**. -/
theorem data_run (i : ℕ) (hi : i < 13) (t : ℕ) (ht : 2 * i + 1 ≤ t ∨ s = State.powerUp) :
    (run step s x t).data ⟨i, hi⟩ = past (fun t => (x t).signExtend 18) t (2 * i + 1) := by
  induction i generalizing t with
  | zero =>
    rw [State.data, run_first]
    refine D₁.bcout_run _ _ t (ht.imp id ?_)
    rintro rfl
    rfl
  | succ i ih =>
    have hpow : s = State.powerUp → s.macs ⟨i, by omega⟩ = D₂.powerUp := by
      rintro rfl
      rfl
    rw [State.data, run_macs, D₂.bcout_run _ _ t (ht.imp (fun h => by omega) hpow)]
    by_cases h : 2 ≤ t
    · rw [past_of_le h]
      simp only [Fin.castSucc_mk]
      rw [ih (by omega) (t - 2) (ht.imp (fun h => by omega) id), past_sub h]
      rfl
    · rw [past_of_lt (by omega), past_of_lt (by omega)]

/-- The sum of the first tap. -/
theorem cascade_first (t : ℕ) (ht : 3 ≤ t ∨ s = State.powerUp) :
    (run step s x t).cascade ⟨0, by omega⟩ =
      product ((coef 0).signExtend 30) (past (fun t => (x t).signExtend 18) t 3) := by
  have hpow : s = State.powerUp → s.first = D₁.powerUp := by
    rintro rfl
    rfl
  rw [State.cascade, run_first]
  cases t with
  | zero =>
    have hs := hpow (ht.resolve_left (by omega))
    rw [run_zero, hs, D₁.p_powerUp, past_of_lt (by omega), product_zero]
  | succ t =>
    rw [D₁.p_run _ _ t (ht.imp (fun h => by omega) hpow), past_succ_succ]
    simp

/-- **The sums move one register per tap**: a tap adds its product to the sum of the tap before. -/
theorem cascade_succ (i : ℕ) (hi : i < 12) (t : ℕ) (ht : 2 * i + 4 ≤ t ∨ s = State.powerUp) :
    (run step s x (t + 1)).cascade ⟨i + 1, by omega⟩ =
      product ((coef (i + 1)).signExtend 30) (past (fun t => (x t).signExtend 18) t (2 * i + 4)) +
        (run step s x t).cascade ⟨i, by omega⟩ := by
  have hpow : s = State.powerUp → s.macs ⟨i, hi⟩ = D₂.powerUp := by
    rintro rfl
    rfl
  rw [State.cascade, run_macs, D₂.p_run _ _ t (ht.imp (fun h => by omega) hpow)]
  simp only [Fin.castSucc_mk, if_true]
  congr 2
  by_cases h : 3 ≤ t
  · rw [past_of_le h, data_run x i (by omega) (t - 3) (ht.imp (fun h => by omega) id), past_sub h]
  · rw [past_of_lt (by omega), past_of_lt (by omega)]

end Slices

/-! ## The products -/

theorem tap_of_le {j : ℕ} (hj : 13 ≤ j) : tap j = 0 := by
  rw [tap, List.getD_eq_getElem?_getD, List.getElem?_eq_none hj]
  rfl

/-- The coefficients fit their 25 bits. -/
theorem coef_toInt (j : ℕ) : (coef j).toInt = tap j := by
  rcases Nat.lt_or_ge j 13 with hlt | hge
  · revert j
    decide
  · rw [coef, tap_of_le hge]
    rfl

theorem setWidth_signExtend (c : BitVec 25) : (c.signExtend 30).setWidth 25 = c := by
  ext i hi
  simp [BitVec.getLsbD_signExtend, hi]
  omega

/-- A slice multiplies exactly. -/
theorem product_coef (j : ℕ) (v : BitVec 16) :
    product ((coef j).signExtend 30) (v.signExtend 18) = ((tap j * v.toInt : ℤ) : BitVec 48) := by
  have hv : (v.signExtend 18).signExtend 48 = BitVec.ofInt 48 v.toInt := by
    rw [BitVec.signExtend, BitVec.toInt_signExtend_of_le (by decide)]
  rw [product, setWidth_signExtend, hv, BitVec.signExtend, coef_toInt, ← BitVec.ofInt_mul]
  rfl

/-! ## The sums -/

/-- The partial sum of tap `i` at cycle `t`, as an integer. -/
def partialSum (x : ℕ → BitVec 16) (t i : ℕ) : ℤ :=
  ∑ j ∈ Finset.range (i + 1), tap j * (past x t (3 + i + j)).toInt

theorem cascade_eq {s : State D₁ D₂} (x : ℕ → BitVec 16) (i : ℕ) (hi : i < 13) {t : ℕ}
    (ht : 2 * i + 3 ≤ t ∨ s = State.powerUp) :
    (run step s x t).cascade ⟨i, hi⟩ = (partialSum x t i : BitVec 48) := by
  have hmap : ∀ t k, past (fun t => (x t).signExtend 18) t k = (past x t k).signExtend 18 :=
    fun t k => past_map (g := fun v : BitVec 16 => v.signExtend 18) (by decide)
  -- the sums as a stream for every index, of which the filter has thirteen
  let p : ℕ → ℕ → BitVec 48 := fun i t =>
    if h : i < 13 then (run step s x t).cascade ⟨i, h⟩ else 0
  have hp : ∀ i t (h : i < 13), p i t = (run step s x t).cascade ⟨i, h⟩ := fun i t h => dif_pos h
  have hsum := systolic_sum (n := 12) (b := 3) (x := x) (p := p)
    (f := fun j v => product ((coef j).signExtend 30) (v.signExtend 18))
    (s = State.powerUp) ?_ ?_ ?_ ?_ i (by omega) t (ht.imp (fun h => by omega) id)
  · rw [← hp, hsum, partialSum, Int.cast_sum]
    apply Finset.sum_congr rfl
    intro j _
    exact product_coef j _
  · intro j
    exact product_zero _
  · intro t ht
    rw [hp 0 t (by omega), cascade_first x t ht, hmap]
  · intro i hi t ht
    rw [hp (i + 1) (t + 1) (by omega), hp i t (by omega),
      cascade_succ x i hi t (ht.imp (fun h => by omega) id), hmap,
      show 3 + 2 * i + 1 = 2 * i + 4 by omega]
  · rintro rfl i hi
    rw [hp i 0 (by omega)]
    cases i with
    | zero => exact D₁.p_powerUp
    | succ i => exact D₂.p_powerUp

/-! ## No overflow -/

theorem toInt_sample (v : BitVec 16) : -32768 ≤ v.toInt ∧ v.toInt ≤ 32767 := by
  have hlo := v.le_toInt
  have hhi := v.toInt_lt
  omega

/-- The largest contribution of a tap. -/
def peak (c : ℤ) : ℤ := if 0 ≤ c then c * 32767 else c * -32768

/-- The smallest contribution of a tap. -/
def trough (c : ℤ) : ℤ := if 0 ≤ c then c * -32768 else c * 32767

theorem mul_toInt_bounds (c : ℤ) (v : BitVec 16) :
    trough c ≤ c * v.toInt ∧ c * v.toInt ≤ peak c := by
  obtain ⟨hlo, hhi⟩ := toInt_sample v
  unfold trough peak
  by_cases hc : 0 ≤ c
  · rw [if_pos hc, if_pos hc]
    exact ⟨Int.mul_le_mul_of_nonneg_left hlo hc, Int.mul_le_mul_of_nonneg_left hhi hc⟩
  · have hc' : c ≤ 0 := by omega
    rw [if_neg hc, if_neg hc]
    exact ⟨Int.mul_le_mul_of_nonpos_left hc' hhi, Int.mul_le_mul_of_nonpos_left hc' hlo⟩

theorem partialSum_bounds (x : ℕ → BitVec 16) (t i : ℕ) :
    ∑ j ∈ Finset.range (i + 1), trough (tap j) ≤ partialSum x t i ∧
      partialSum x t i ≤ ∑ j ∈ Finset.range (i + 1), peak (tap j) :=
  ⟨Finset.sum_le_sum fun j _ => (mul_toInt_bounds (tap j) _).1,
    Finset.sum_le_sum fun j _ => (mul_toInt_bounds (tap j) _).2⟩

/-- **The room the partial sums need**: forty bits and a sign, at every tap. -/
theorem partialSum_room (x : ℕ → BitVec 16) (t : ℕ) {i : ℕ} (hi : i < 13) :
    -2 ^ 40 ≤ partialSum x t i ∧ partialSum x t i < 2 ^ 40 := by
  have hroom : ∀ i < 13, -2 ^ 40 ≤ ∑ j ∈ Finset.range (i + 1), trough (tap j) ∧
      ∑ j ∈ Finset.range (i + 1), peak (tap j) < 2 ^ 40 := by decide
  have hb := partialSum_bounds x t i
  have hr := hroom i hi
  omega

/-- The partial sums are exact: no bit is lost in 48. -/
theorem cascade_toInt {s : State D₁ D₂} (x : ℕ → BitVec 16) (i : ℕ) (hi : i < 13) {t : ℕ}
    (ht : 2 * i + 3 ≤ t ∨ s = State.powerUp) :
    ((run step s x t).cascade ⟨i, hi⟩).toInt = partialSum x t i := by
  obtain ⟨hlo, hhi⟩ := partialSum_room x t hi
  rw [cascade_eq x i hi ht]
  exact BitVec.toInt_ofInt_eq_self (by decide) (by omega) (by omega)

/-! ## The output -/

/-- **The seven bits dropped at the top are copies of the sign** where the sum stays within forty
bits and a sign. -/
theorem slice_toInt {v : BitVec 48} (hlo : -2 ^ 40 ≤ v.toInt) (hhi : v.toInt < 2 ^ 40) :
    (v.extractLsb' 25 16).toInt = v.toInt / 2 ^ 25 := by
  have hlt := v.isLt
  rw [BitVec.toInt_eq_toNat_cond, BitVec.extractLsb'_toNat, Nat.shiftRight_eq_div_pow]
  rw [BitVec.toInt_eq_toNat_cond] at hlo hhi ⊢
  split_ifs at hlo hhi ⊢ <;> omega

theorem dataO_toInt {s : State D₁ D₂} (x : ℕ → BitVec 16) {t : ℕ}
    (ht : 27 ≤ t ∨ s = State.powerUp) :
    (run step s x t).dataO.toInt = partialSum x t 12 / 2 ^ 25 := by
  have hfull : (run step s x t).dataFull.toInt = partialSum x t 12 :=
    cascade_toInt x 12 (by decide) (ht.imp (fun h => by omega) id)
  obtain ⟨hlo, hhi⟩ := partialSum_room x t (show 12 < 13 by decide)
  rw [State.dataO, slice_toInt (by omega) (by omega), hfull]

theorem dataO_bounds {s : State D₁ D₂} (x : ℕ → BitVec 16) {t : ℕ}
    (ht : 27 ≤ t ∨ s = State.powerUp) :
    -26841 ≤ (run step s x t).dataO.toInt ∧ (run step s x t).dataO.toInt ≤ 26840 := by
  have hends : -26841 * 2 ^ 25 ≤ ∑ j ∈ Finset.range (12 + 1), trough (tap j) ∧
      ∑ j ∈ Finset.range (12 + 1), peak (tap j) < 26841 * 2 ^ 25 := by decide
  have hb := partialSum_bounds x t 12
  rw [dataO_toInt x ht]
  omega

/-- **The filter is exact and never overflows**: from any state of its registers, once 27 cycles
have flushed them, every partial sum is the integer one and the output is the weighted sum of the
last thirteen samples it has, divided by `2 ^ 25` and rounded down. The output stays within its
bounds from then on, and from the first cycle after a power-up. -/
theorem hpf_exact (s : State D₁ D₂) (x : ℕ → BitVec 16) :
    (∀ t, 27 ≤ t →
      (∀ i : Fin 13, ((run step s x t).cascade i).toInt =
        ∑ j ∈ Finset.range (i + 1), tap j * (x (t - 3 - i - j)).toInt) ∧
      (run step s x t).dataO.toInt =
        (∑ i ∈ Finset.range 13, tap i * (x (t - 15 - i)).toInt) / 2 ^ 25 ∧
      -26841 ≤ (run step s x t).dataO.toInt ∧ (run step s x t).dataO.toInt ≤ 26840) ∧
    ∀ t, -26841 ≤ (run step (State.powerUp : State D₁ D₂) x t).dataO.toInt ∧
      (run step (State.powerUp : State D₁ D₂) x t).dataO.toInt ≤ 26840 := by
  have hpast : ∀ t i, 27 ≤ t → i ≤ 12 → partialSum x t i =
      ∑ j ∈ Finset.range (i + 1), tap j * (x (t - 3 - i - j)).toInt := by
    intro t i ht hi
    apply Finset.sum_congr rfl
    intro j hj
    have hj' := Finset.mem_range.mp hj
    rw [past_of_le (by omega), show t - 3 - i - j = t - (3 + i + j) by omega]
  refine ⟨?_, fun t => dataO_bounds x (Or.inr rfl)⟩
  intro t ht
  refine ⟨?_, ?_, dataO_bounds x (Or.inl ht)⟩
  · rintro ⟨i, hi⟩
    rw [cascade_toInt x i hi (Or.inl (by omega)), hpast t i ht (by omega)]
  · rw [dataO_toInt x (Or.inl ht), hpast t 12 ht le_rfl]
    simp only [Nat.sub_sub]

/-- One sample at half of the range. -/
def impulse (t : ℕ) : BitVec 16 := if t = 0 then 0x4000 else 0

/-- The last thing the filter shows of it is the last coefficient. -/
theorem impulse_last_tap :
    (run step (State.powerUp : State Dsp48e1.oneB Dsp48e1.twoB) impulse 27).dataO.toInt = 91 := by
  rw [((hpf_exact _ impulse).1 27 le_rfl).2.1]
  decide

end HpfAdcinput
