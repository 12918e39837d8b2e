import BpmGateware.BpmSwap.Period
import Mathlib.Algebra.Ring.Int.Defs

/-!
# The range of the divider registers

The count and the two divider registers are declared as naturals below `2 ^ w`, and the value that
`p_reg_swap_div` takes from the setting is one less than it. Here the registers are integers, as the
source computes them, so that a value outside the declared range can be seen. From above nothing
happens: the count stays below the terminal count, and the terminal count below the setting. From
below the subtraction is not guarded: a setting of zero, which is also the one after a reset of the
register bank, gives `-1` at the first enabled edge.

## Main definitions

* `Divider`, `dividerStep`: the divider over the integers
* `Divider.InRange w`: the declared range of its registers
* `Freq.Within w`: the invariant of the divider over the naturals

## Main results

* `toDivider_step`: with a setting other than zero the two dividers do the same
* `divider_in_range_iff`: the runs that stay in the declared range
-/

namespace BpmSwap

open Clocked

variable {w : ℕ}

/-! ## The divider over the integers -/

/-- The registers of `p_freq_swap` and `p_reg_swap_div`, as integers. -/
structure Divider where
  count : ℤ
  clkSwap : Bool
  synchPending : Bool
  cnstSwapDivF : ℤ
  cnstSwapDivFOld : ℤ
  deriving DecidableEq, Repr

/-- The counter part of `p_freq_swap`, up to the last `if`. -/
def Divider.advance (s : Divider) (i : FreqIn w) : Divider :=
  if i.en = false then s
  else if s.cnstSwapDivF ≠ s.cnstSwapDivFOld then { s with count := 0, clkSwap := true }
  else if i.cntEn = false then s
  else if s.synchPending then { s with count := 0, clkSwap := true, synchPending := false }
  else if s.count = s.cnstSwapDivF then { s with count := 0, clkSwap := !s.clkSwap }
  else { s with count := s.count + 1 }

/-- **One edge of the divider over the integers**. -/
def dividerStep (s : Divider) (i : FreqIn w) : Divider :=
  if i.rstN = false then ⟨0, true, false, 0, 0⟩
  else
    { s.advance i with
      synchPending :=
        if i.syncTrig = true ∧ (s.count ≠ s.cnstSwapDivF ∨ s.clkSwap = false) then true
        else (s.advance i).synchPending
      -- `to_integer(unsigned(swap_div_f_i)) - 1`
      cnstSwapDivFOld := if i.en then (i.swapDivF.toNat : ℤ) - 1 else s.cnstSwapDivFOld
      cnstSwapDivF := if i.en then s.cnstSwapDivFOld else s.cnstSwapDivF }

/-- `natural range 0 to 2**w-1` -/
def Declared (w : ℕ) (x : ℤ) : Prop := 0 ≤ x ∧ x ≤ 2 ^ w - 1

/-- The three registers are in their declared range. -/
structure Divider.InRange (w : ℕ) (s : Divider) : Prop where
  count : Declared w s.count
  cnst : Declared w s.cnstSwapDivF
  old : Declared w s.cnstSwapDivFOld

/-- The registers over the naturals, read as integers. -/
def Freq.toDivider (s : Freq) : Divider :=
  ⟨s.phase.count, s.phase.clkSwap, s.phase.synchPending, s.cnstSwapDivF, s.cnstSwapDivFOld⟩

/-! ## Settings other than zero -/

/-- The setting is not zero at an edge that takes it. -/
def FreqIn.NonZero (i : FreqIn w) : Prop := i.rstN = true → i.en = true → i.swapDivF ≠ 0

theorem toDivider_advance (s : Freq) (i : FreqIn w) :
    s.toDivider.advance i =
      { s.toDivider with
        count := (s.advance i).count
        clkSwap := (s.advance i).clkSwap
        synchPending := (s.advance i).synchPending } := by
  unfold Freq.advance Divider.advance Freq.toDivider
  simp only [ne_eq, Int.natCast_inj]
  split_ifs <;> simp

/-- One less than the setting, over the naturals and over the integers. -/
theorem setting_sub_one {x : BitVec w} (hx : x ≠ 0) : ((x.toNat - 1 : ℕ) : ℤ) = x.toNat - 1 := by
  have hpos : 0 < x.toNat := by
    rw [Nat.pos_iff_ne_zero]
    intro h
    exact hx (BitVec.eq_of_toNat_eq (by simp [h]))
  omega

/-- **With a setting other than zero the two dividers do the same**. -/
theorem toDivider_step (s : Freq) {i : FreqIn w} (hi : i.NonZero) :
    dividerStep s.toDivider i = (freqStep s i).toDivider := by
  cases hr : i.rstN with
  | false => simp [dividerStep, freqStep, hr, Freq.reset, Freq.toDivider]
  | true =>
    have hdrop : (s.toDivider.count ≠ s.toDivider.cnstSwapDivF ∨ s.toDivider.clkSwap = false) ↔
        ¬ s.Drops := by
      simp only [Freq.toDivider, Freq.Drops, ne_eq, Int.natCast_inj, not_and_or, Bool.not_eq_true]
    have hold : ((freqStep s i).cnstSwapDivFOld : ℤ) =
        if i.en then (i.swapDivF.toNat : ℤ) - 1 else s.cnstSwapDivFOld := by
      simp only [freqStep, hr, Bool.true_eq_false, if_false]
      split_ifs with he
      · exact setting_sub_one (hi hr he)
      · rfl
    have hcnst : ((freqStep s i).cnstSwapDivF : ℤ) =
        if i.en then (s.cnstSwapDivFOld : ℤ) else s.cnstSwapDivF := by
      simp only [freqStep, hr, Bool.true_eq_false, if_false]
      split_ifs <;> rfl
    have hpending : (freqStep s i).phase.synchPending =
        if i.syncTrig = true ∧ ¬ s.Drops then true else (s.advance i).synchPending := by
      rw [phase_step hr]
      split_ifs <;> rfl
    rw [dividerStep, if_neg (by simp [hr]), toDivider_advance]
    simp only [hdrop]
    unfold Freq.toDivider
    rw [hold, hcnst, hpending, freqStep_count s hr, freqStep_clkSwap s hr]

theorem toDivider_run (s : Freq) {inp : ℕ → FreqIn w} {t : ℕ} (h : ∀ x < t, (inp x).NonZero) :
    run dividerStep s.toDivider inp t = (run freqStep s inp t).toDivider := by
  induction t with
  | zero => rfl
  | succ t ih =>
    rw [run_succ, run_succ, ih fun x hx => h x (by omega), toDivider_step _ (h t (by omega))]

/-! ## The range -/

/-- The count has not passed the terminal count, and the divider registers are below `2 ^ w`. -/
structure Freq.Within (w : ℕ) (s : Freq) : Prop where
  bounded : s.Bounded
  cnst : s.cnstSwapDivF < 2 ^ w
  old : s.cnstSwapDivFOld < 2 ^ w

theorem reset_within (w : ℕ) : Freq.reset.Within w :=
  ⟨Nat.le_refl 0, Nat.two_pow_pos w, Nat.two_pow_pos w⟩

theorem within_step {s : Freq} (hs : s.Within w) (i : FreqIn w) : (freqStep s i).Within w := by
  cases hr : i.rstN with
  | false =>
    rw [freqStep, if_pos hr]
    exact reset_within w
  | true =>
    refine ⟨bounded_step hs.bounded i, ?_, ?_⟩
    · simp only [freqStep, hr, Bool.true_eq_false, if_false]
      split_ifs
      · exact hs.old
      · exact hs.cnst
    · simp only [freqStep, hr, Bool.true_eq_false, if_false]
      split_ifs
      · exact lt_of_le_of_lt (Nat.sub_le _ _) i.swapDivF.isLt
      · exact hs.old

theorem within_run {s : Freq} (hs : s.Within w) (inp : ℕ → FreqIn w) (t : ℕ) :
    (run freqStep s inp t).Within w := by
  apply run_invariant (I := fun _ s => Freq.Within w s) hs
  intro t s hs
  exact within_step hs (inp t)

theorem declared_of_lt {n : ℕ} (h : n < 2 ^ w) : Declared w n := by
  refine ⟨Int.natCast_nonneg n, ?_⟩
  have : (n : ℤ) < 2 ^ w := by exact_mod_cast h
  omega

theorem Freq.Within.inRange {s : Freq} (hs : s.Within w) : s.toDivider.InRange w where
  count := declared_of_lt (lt_of_le_of_lt hs.bounded hs.cnst)
  cnst := declared_of_lt hs.cnst
  old := declared_of_lt hs.old

/-- **The runs that stay in the declared range**. From power-up, or from a reset, under any
settings, enables, triggers and resets, and up to any cycle: every value of the count and of the
divider registers is in its declared range just if no edge before has taken a setting of zero. -/
theorem divider_in_range_iff {s : Freq} (hs : s.Within w) (inp : ℕ → FreqIn w) (T : ℕ) :
    (∀ t ≤ T, (run dividerStep s.toDivider inp t).InRange w) ↔
      ∀ t < T, (inp t).rstN = true → (inp t).en = true → (inp t).swapDivF ≠ 0 := by
  constructor
  · intro hin t ht hr he hzero
    have hold := (hin (t + 1) ht).old.1
    rw [run_succ, dividerStep, if_neg (by simp [hr])] at hold
    simp [he, hzero] at hold
  · intro hne t ht
    rw [toDivider_run s fun x hx => hne x (by omega)]
    exact (within_run hs inp t).inRange

/-- Three cycles of reset, and the 'Swap Divisor' register, which comes up as zero, written at
cycle `k`. -/
def writtenAt (k t : ℕ) : FreqIn 16 :=
  ⟨decide (3 ≤ t), true, false, if t < k then 0 else 1000, true⟩

/-- Written under reset, the register is in time. -/
theorem writtenAt_two_in_range :
    (run dividerStep Freq.reset.toDivider (writtenAt 2) 10).InRange 16 := by
  apply (divider_in_range_iff (reset_within 16) (writtenAt 2) 10).mpr ?_ 10 le_rfl
  intro t _ hr _
  have ht : 3 ≤ t := of_decide_eq_true hr
  have hset : (writtenAt 2 t).swapDivF = 1000 := if_neg (by omega)
  rw [hset]
  decide

/-- **The register written after the reset**: the first edge out of reset still takes the zero. -/
theorem writtenAt_five_below :
    (run dividerStep Freq.reset.toDivider (writtenAt 5) 4).cnstSwapDivFOld = -1 ∧
      ¬ (run dividerStep Freq.reset.toDivider (writtenAt 5) 4).InRange 16 := by
  have hold : (run dividerStep Freq.reset.toDivider (writtenAt 5) 4).cnstSwapDivFOld = -1 := by
    decide
  refine ⟨hold, ?_⟩
  intro hin
  have hlow := hin.old.1
  rw [hold] at hlow
  omega

end BpmSwap
