import BpmGateware.OrbitIntlk.Trip

/-!
# The minimum-sum status

`intlk_sum_bigger_any_o` is the status bit `MIN_SUM_BIGGER`. Four cycles after a sample pair it
shows whether the sum of either monitor reaches the minimum sum, and holds that until the next pair
gets there, whatever the pairs' spacing. The comparator is the carry of `sum + not min_sum + 1`
alone, which compares without sign, where the comparators of the positions correct it by the sign
bits. The testbench compares with sign. Both agree for a sum of the same sign as the minimum sum,
and are opposite for any other.

## Main definitions

* `Input.SumOracle`: what the testbench expects of the status bit
* `Input.SignOfMin`: a sum with the sign of the minimum sum

## Main results

* `sumBiggerReg_holds`: what the result register of a monitor shows between two pairs
* `min_sum_oracle_iff`: the pairs for which the status bit is what the testbench expects
-/

namespace OrbitIntlk

open Clocked

variable {w : ℕ} {A : GcBigAdder2 w}

/-! ## The status bit -/

section Status

/-- No sample of either monitor at a cycle. -/
def Input.quiet (i : Input w) : Prop := i.dsValid = false ∧ i.usValid = false

theorem Input.quiet.validOf {i : Input w} (h : i.quiet) (b : Bpm) : i.validOf b = false := by
  cases b
  · exact h.1
  · exact h.2

variable {s : State A} {inp : ℕ → Input w} {u : ℕ}

/-- **What a result register shows** from three cycles after a pair on, up to three cycles after the
next one. -/
theorem sumBiggerReg_holds {b : Bpm} (hv : (inp u).validOf b = true) {t : ℕ} (hut : u + 3 ≤ t)
    (hr : ∀ x, u + 2 ≤ x → x < t → (inp x).rstN = true)
    (hno : ∀ x, u < x → x + 3 ≤ t → (inp x).quiet) :
    (run step s inp t).sumBiggerReg b = (inp u).cfg.minSum.ule ((inp u).sumOf b) := by
  induction t, hut using Nat.le_induction with
  | base =>
    have hrst := hr (u + 2) le_rfl (by omega)
    rw [Operation.sumBiggerReg_run, if_neg (by simp [hrst]), if_pos hv]
  | succ t ht ih =>
    obtain ⟨m, rfl⟩ := Nat.exists_eq_add_of_le' (show 2 ≤ t by omega)
    have hrst := hr (m + 2) (by omega) (by omega)
    have hq := (hno m (by omega) (by omega)).validOf b
    rw [Operation.sumBiggerReg_run, if_neg (by simp [hrst]), if_neg (by simp [hq])]
    exact ih (fun x hx hx' => hr x hx (by omega)) fun x hx hx' => hno x hx (by omega)

/-- The status bit from four cycles after a pair on, up to four cycles after the next one. -/
theorem sumBiggerAny_holds (hds : (inp u).dsValid = true) (hus : (inp u).usValid = true) {t : ℕ}
    (hut : u + 4 ≤ t) (hr : ∀ x, u + 2 ≤ x → x < t → (inp x).rstN = true)
    (hno : ∀ x, u < x → x + 4 ≤ t → (inp x).quiet) :
    (run step s inp t).sumBiggerAny =
      ((inp u).cfg.minSum.ule (inp u).ds.sum || (inp u).cfg.minSum.ule (inp u).us.sum) := by
  obtain ⟨m, rfl⟩ := Nat.exists_eq_add_of_le' (show 1 ≤ t by omega)
  have hreg : ∀ b, (inp u).validOf b = true → (run step s inp m).sumBiggerReg b =
      (inp u).cfg.minSum.ule ((inp u).sumOf b) := by
    intro b hb
    apply sumBiggerReg_holds hb (by omega)
    · exact fun x hx hx' => hr x hx (by omega)
    · exact fun x hx hx' => hno x hx (by omega)
  rw [run_succ]
  simp only [step, hr m (by omega) (by omega), Bool.true_and, hreg .ds hds, hreg .us hus,
    Input.sumOf]

end Status

/-! ## The oracle of the testbench -/

/-- `MIN_SUM_BIGGER` as the testbench expects it: the sums and the minimum sum are compared with
their signs. -/
def Input.SumOracle (i : Input w) : Prop :=
  i.cfg.minSum.toInt ≤ i.ds.sum.toInt ∨ i.cfg.minSum.toInt ≤ i.us.sum.toInt

/-- The sum of a monitor has the sign of the minimum sum. -/
def Input.SignOfMin (i : Input w) (b : Bpm) : Prop := (i.sumOf b).msb = i.cfg.minSum.msb

theorem exists_bpm {P : Bpm → Prop} : (∃ b, P b) ↔ P .ds ∨ P .us :=
  ⟨fun ⟨b, h⟩ => by cases b <;> simp [h], fun h => h.elim (⟨_, ·⟩) (⟨_, ·⟩)⟩

theorem forall_bpm {P : Bpm → Prop} : (∀ b, P b) ↔ P .ds ∧ P .us :=
  ⟨fun h => ⟨h .ds, h .us⟩, fun h b => by cases b <;> simp [h]⟩

/-- Two sums compared without and with sign: the outcome is the same if both have the sign of the
threshold, or if one that has it reaches the threshold. -/
theorem ule_or_ule_eq_sle_or_sle (m x y : BitVec w) :
    (m.ule x || m.ule y) = (m.sle x || m.sle y) ↔
      (x.msb = m.msb ∧ y.msb = m.msb) ∨ (x.msb = m.msb ∧ m.sle x = true) ∨
        (y.msb = m.msb ∧ m.sle y = true) := by
  by_cases hx : x.msb = m.msb <;> by_cases hy : y.msb = m.msb
  · simp [ule_of_msb_eq hx, ule_of_msb_eq hy, hx, hy]
  · rw [ule_of_msb_eq hx, ule_of_msb_ne hy, sle_of_msb_ne hy]
    cases m.sle x <;> cases hm : m.msb <;> simp_all
  · rw [ule_of_msb_ne hx, ule_of_msb_eq hy, sle_of_msb_ne hx]
    cases m.sle y <;> cases hm : m.msb <;> simp_all
  · rw [ule_of_msb_ne hx, ule_of_msb_ne hy, sle_of_msb_ne hx, sle_of_msb_ne hy]
    cases hm : m.msb <;> simp_all

/-- **When the status bit is what the testbench expects**: from four cycles after a pair until four
cycles after the next one, out of reset, exactly when both sums have the sign of the minimum sum,
or one that has it reaches the minimum sum. -/
theorem min_sum_oracle_iff (s : State A) (inp : ℕ → Input w) {u t : ℕ}
    (hds : (inp u).dsValid = true) (hus : (inp u).usValid = true) (hut : u + 4 ≤ t)
    (hr : ∀ x, u + 2 ≤ x → x < t → (inp x).rstN = true)
    (hno : ∀ x, u < x → x + 4 ≤ t → (inp x).quiet) :
    ((run step s inp t).sumBiggerAny = true ↔ (inp u).SumOracle) ↔
      (∀ b, (inp u).SignOfMin b) ∨
        ∃ b, (inp u).SignOfMin b ∧ (inp u).cfg.minSum.toInt ≤ ((inp u).sumOf b).toInt := by
  have horacle : (inp u).SumOracle ↔
      ((inp u).cfg.minSum.sle (inp u).ds.sum || (inp u).cfg.minSum.sle (inp u).us.sum) = true := by
    simp only [Input.SumOracle, Bool.or_eq_true, BitVec.sle_iff_toInt_le]
  rw [sumBiggerAny_holds hds hus hut hr hno, horacle, ← Bool.eq_iff_iff,
    ule_or_ule_eq_sle_or_sle, forall_bpm, exists_bpm]
  simp only [Input.SignOfMin, Input.sumOf, BitVec.sle_iff_toInt_le]

instance (i : Input w) : Decidable i.SumOracle := inferInstanceAs (Decidable (_ ∨ _))

theorem scenario_quiet (cfg : Config w) {f : ℕ → Option (Sample w × Sample w)} {x : ℕ}
    (hf : f x = none) : (scenario cfg f x).quiet := by
  simp [Input.quiet, scenario, hf]

/-- The large sums of the limits test are reported. -/
theorem onePair_min_sum :
    (run step (State.powerUp (A := Adder.twoStage 32) idleAdder) (scenario minSumConfig onePair)
      16).sumBiggerAny = true ↔ (scenario minSumConfig onePair 10).SumOracle := by
  refine (min_sum_oracle_iff _ (scenario minSumConfig onePair) (u := 10) rfl rfl (by omega) ?_
    ?_).mpr (Or.inl fun b => by cases b <;> rfl)
  · intro x hx _
    exact (scenario_operation minSumConfig onePair_spaced).reset.high x (by omega)
  · intro x hx _
    exact scenario_quiet _ (by simp [onePair, show x ≠ 10 by omega])

/-- A pair with a negative sum downstream and none upstream. -/
def negativeSum (t : ℕ) : Option (Sample 32 × Sample 32) :=
  if t = 10 then some (⟨0, 0, 0, 0x80000000⟩, ⟨0, 0, 0, 0⟩) else none

/-- **A negative sum counts as large**: neither sum reaches the minimum sum, and the status bit is
up. -/
theorem negativeSum_reported :
    (run step (State.powerUp (A := Adder.twoStage 32) idleAdder)
        (scenario minSumConfig negativeSum) 14).sumBiggerAny = true ∧
      ¬ (scenario minSumConfig negativeSum 10).SumOracle :=
  ⟨by decide +kernel, by decide⟩

end OrbitIntlk
