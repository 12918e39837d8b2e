import BpmGateware.Clocked.Hold
import BpmGateware.OrbitIntlk.Basic

/-!
# What the detectors register

Each stage of a detector holds its data between samples, so after a reset every register shows
the work of one sample: the last one that has reached that stage. For samples at least three
cycles apart the comparator results, taken two edges after the operands, meet the sign bits of
the same sample, and the result registers show the signed comparison of that sample's own word,
five edges after the sample for the angle and six for the translation.

## Main definitions

* `ResetThen rstN n`: `n ≥ 3` cycles of reset, and none afterwards
* `taken rstN valid`: the samples that are out of the first adder when the reset is over
* `transWord`, `angWord`: the words the adders form from a pair of positions

## Main results

* `TransChan.biggerReg_eq`, `TransChan.smallerReg_eq`: the translation verdicts
* `AngChan.biggerReg_eq`, `AngChan.smallerReg_eq`: the angle verdicts
-/

namespace OrbitIntlk

open Clocked

variable {w : ℕ} {A : GcBigAdder2 w}

/-! ## Runs after a reset -/

section Reset

variable {rstN valid : ℕ → Bool} {n t : ℕ}

/-- Reset is held for at least three cycles and not asserted again. -/
structure ResetThen (rstN : ℕ → Bool) (n : ℕ) : Prop where
  low : ∀ t < n, rstN t = false
  high : ∀ t, n ≤ t → rstN t = true
  three_le : 3 ≤ n

/-- The samples that count. A sample may arrive while reset is held; it is lost unless the reset
is over two cycles later, when it leaves the first adder. -/
def taken (rstN valid : ℕ → Bool) (t : ℕ) : Bool := rstN (t + 2) && valid t

theorem ResetThen.taken_of_lt (h : ResetThen rstN n) (ht : t + 2 < n) :
    taken rstN valid t = false := by
  simp [taken, h.low _ ht]

theorem ResetThen.taken_of_le (h : ResetThen rstN n) (ht : n ≤ t + 2) :
    taken rstN valid t = valid t := by
  simp [taken, h.high _ ht]

theorem ResetThen.le_of_taken (h : ResetThen rstN n) (hv : taken rstN valid t = true) :
    n ≤ t + 2 := by
  by_contra hlt
  rw [h.taken_of_lt (by omega)] at hv
  exact Bool.false_ne_true hv

/-- No sample that counts is lost to the reset on its way through `k ≥ 2` stages. -/
theorem ResetThen.rstN_and_delay (h : ResetThen rstN n) (v : ℕ → Bool) {k : ℕ}
    (hk : 2 ≤ k) (t : ℕ) :
    (rstN t && delay k (taken rstN v) t) = delay k (taken rstN v) t := by
  by_cases hd : delay k (taken rstN v) t = true
  · have hv : k ≤ t ∧ taken rstN v (t - k) = true := by simpa [delay] using hd
    have := h.le_of_taken hv.2
    rw [h.high t (by omega), Bool.true_and]
  · simp only [Bool.not_eq_true] at hd
    rw [hd, Bool.and_false]

theorem spaced_taken {k : ℕ} (h : Spaced k valid) : Spaced k (taken rstN valid) := by
  intro u x hu hx hx'
  simp only [taken, Bool.and_eq_true] at hu
  simp [taken, h u x hu.2 hx hx']

end Reset

/-! ## The comparators -/

section Thold

variable (s : Thold A) (i : ℕ → TholdIn w)

theorem Thold.run_biggerAdder (t : ℕ) :
    (run tholdStep s i t).biggerAdder =
      run A.step s.biggerAdder (fun t => ⟨(i t).valid, (i t).value, ~~~(i t).max, true⟩) t :=
  run_proj Thold.biggerAdder (fun _ i => (⟨i.valid, i.value, ~~~i.max, true⟩ : AdderIn w))
    (fun _ _ => rfl) s i t

theorem Thold.run_smallerAdder (t : ℕ) :
    (run tholdStep s i t).smallerAdder =
      run A.step s.smallerAdder (fun t => ⟨(i t).valid, ~~~(i t).value, (i t).min, true⟩) t :=
  run_proj Thold.smallerAdder (fun _ i => (⟨i.valid, ~~~i.value, i.min, true⟩ : AdderIn w))
    (fun _ _ => rfl) s i t

/-- The bigger result register: it is loaded with the carry of the operands of two edges ago and
the sign bits of the present ones. -/
theorem Thold.biggerReg_run (t : ℕ) :
    (run tholdStep s i (t + 3)).biggerReg =
      if (i (t + 2)).rstN = false then false
      else if (i t).valid then
        signedGe (BitVec.carry w (i t).value (~~~(i t).max) true) (i (t + 2)).value.msb
          (i (t + 2)).max.msb
      else (run tholdStep s i (t + 2)).biggerReg := by
  rw [run_succ]
  simp only [tholdStep, Thold.biggerComb, Thold.run_biggerAdder, A.valid_run, A.carry_run,
    AdderIn.carry]

/-- The smaller result register. -/
theorem Thold.smallerReg_run (t : ℕ) :
    (run tholdStep s i (t + 3)).smallerReg =
      if (i (t + 2)).rstN = false then false
      else if (i t).valid then
        signedLe (BitVec.carry w (~~~(i t).value) (i t).min true) (i (t + 2)).value.msb
          (i (t + 2)).min.msb
      else (run tholdStep s i (t + 2)).smallerReg := by
  rw [run_succ]
  simp only [tholdStep, Thold.smallerComb, Thold.run_smallerAdder, A.valid_run, A.carry_run,
    AdderIn.carry]

/-- A comparator fed at a steady pace after a reset: constant limits, and a value that stays for
the two edges its comparison takes. The valids are those of `v` from the first edge on. -/
structure Thold.Steady (i : ℕ → TholdIn w) (v : ℕ → Bool) (n : ℕ) (max min : BitVec w) :
    Prop where
  reset : ResetThen (fun t => (i t).rstN) n
  valid : ∀ t, 1 ≤ t → (i t).valid = v t
  quiet : ∀ t, t + 2 < n → v t = false
  stable : ∀ t, v t = true → (i (t + 2)).value = (i t).value
  max_eq : ∀ t, (i t).max = max
  min_eq : ∀ t, (i t).min = min

variable {s i} {v : ℕ → Bool} {n : ℕ} {max min : BitVec w}

/-- Either result register shows the verdict on the last value whose comparison is done. -/
theorem Thold.Steady.reg_eq (h : Thold.Steady i v n max min) {r verdict : ℕ → Bool}
    (h₀ : r n = false) (hr : ∀ t, n ≤ t + 2 → r (t + 3) = if v t then verdict t else r (t + 2))
    {t : ℕ} (ht : n ≤ t) : r t = (latest v (t - 2)).elim false verdict := by
  have hn := h.reset.three_le
  rw [← h₀]
  refine hold_delay_eq_latest ?_ h.quiet ht
  intro t ht
  obtain ⟨m, rfl⟩ := Nat.exists_eq_add_of_le' (show 2 ≤ t by omega)
  rw [hr m ht, delay_add, Nat.add_sub_cancel]

theorem Thold.Steady.biggerReg_eq (h : Thold.Steady i v n max min) {t : ℕ} (ht : n ≤ t) :
    (run tholdStep s i t).biggerReg =
      (latest v (t - 2)).elim false fun x => max.sle (i x).value := by
  have hn := h.reset.three_le
  refine h.reg_eq (r := fun t => (run tholdStep s i t).biggerReg) ?_ ?_ ht
  · obtain ⟨m, rfl⟩ := Nat.exists_eq_add_of_le' (show 1 ≤ n by omega)
    simp [run_succ, tholdStep, h.reset.low m (by omega)]
  · intro t ht
    rw [Thold.biggerReg_run, if_neg (by simp [h.reset.high _ ht]), h.valid t (by omega)]
    by_cases hv : v t = true
    · rw [if_pos hv, if_pos hv, h.stable t hv, h.max_eq, h.max_eq, signedGe_eq]
    · rw [if_neg hv, if_neg hv]

theorem Thold.Steady.smallerReg_eq (h : Thold.Steady i v n max min) {t : ℕ} (ht : n ≤ t) :
    (run tholdStep s i t).smallerReg =
      (latest v (t - 2)).elim false fun x => (i x).value.sle min := by
  have hn := h.reset.three_le
  refine h.reg_eq (r := fun t => (run tholdStep s i t).smallerReg) ?_ ?_ ht
  · obtain ⟨m, rfl⟩ := Nat.exists_eq_add_of_le' (show 1 ≤ n by omega)
    simp [run_succ, tholdStep, h.reset.low m (by omega)]
  · intro t ht
    rw [Thold.smallerReg_run, if_neg (by simp [h.reset.high _ ht]), h.valid t (by omega)]
    by_cases hv : v t = true
    · rw [if_pos hv, if_pos hv, h.stable t hv, h.min_eq, h.min_eq, signedLe_eq]
    · rw [if_neg hv, if_neg hv]

end Thold

/-! ## The sum stage -/

section SumStage

variable (s : SumStage A) (i : ℕ → SumIn w)

theorem SumStage.run_adder (t : ℕ) :
    (run sumStep s i t).adder = run A.step s.adder (fun t => (i t).op) t :=
  run_proj SumStage.adder (fun _ i => i.op) (fun _ _ => rfl) s i t

theorem SumStage.adder_valid (t : ℕ) :
    A.valid (run sumStep s i (t + 2)).adder = (i t).op.valid := by
  rw [SumStage.run_adder, A.valid_run]

theorem SumStage.adder_sum (t : ℕ) :
    A.sum (run sumStep s i (t + 2)).adder = (i t).op.sum := by
  rw [SumStage.run_adder, A.sum_run]

theorem SumStage.sumValidReg_run (u : ℕ) :
    (run sumStep s i (u + 3)).sumValidReg = ((i (u + 2)).rstN && (i u).op.valid) := by
  rw [run_succ, sumStep, SumStage.adder_valid]

theorem SumStage.sumReg_run (u : ℕ) :
    (run sumStep s i (u + 3)).sumReg =
      if (i (u + 2)).rstN && (i u).op.valid then (i u).op.sum
      else (run sumStep s i (u + 2)).sumReg := by
  rw [run_succ, sumStep, SumStage.adder_valid, SumStage.adder_sum]

variable {n : ℕ}

variable {i}

theorem SumStage.sumValidReg_eq (h : ResetThen (fun t => (i t).rstN) n) {t : ℕ} (ht : 1 ≤ t) :
    (run sumStep s i t).sumValidReg =
      delay 3 (taken (fun t => (i t).rstN) fun t => (i t).op.valid) t := by
  obtain ⟨m, rfl⟩ := Nat.exists_eq_add_of_le' ht
  have hn := h.three_le
  rcases Nat.lt_or_ge m 2 with hlt | hge
  · -- what the core shows before its first operands come out falls into the reset
    rw [run_succ, delay_of_lt (by omega)]
    simp [sumStep, h.low m (by omega)]
  · obtain ⟨m, rfl⟩ := Nat.exists_eq_add_of_le' hge
    rw [SumStage.sumValidReg_run, delay_add]
    rfl

theorem SumStage.sumReg_eq (h : ResetThen (fun t => (i t).rstN) n) {t : ℕ} (ht : n ≤ t) :
    (run sumStep s i t).sumReg =
      (latest (taken (fun t => (i t).rstN) fun t => (i t).op.valid) (t - 2)).elim
        (run sumStep s i n).sumReg fun u => (i u).op.sum := by
  have hn := h.three_le
  refine hold_delay_eq_latest (r := fun t => (run sumStep s i t).sumReg) ?_
    (fun t ht => h.taken_of_lt ht) ht
  intro t ht
  obtain ⟨m, rfl⟩ := Nat.exists_eq_add_of_le' (show 2 ≤ t by omega)
  rw [SumStage.sumReg_run, delay_add, Nat.add_sub_cancel]
  rfl

end SumStage

/-! ## The words that are compared -/

/-- The translation word: the sum modulo `2 ^ w`, shifted right by one with its sign. -/
def transWord (us ds : BitVec w) : BitVec w := (us + ds).sshiftRight 1

/-- The angle word: the difference modulo `2 ^ w`. -/
def angWord (us ds : BitVec w) : BitVec w := ds - us

theorem ChanIn.transSum_sum (i : ChanIn w) : i.transSum.op.sum = i.us + i.ds := by
  simp [ChanIn.transSum, AdderIn.sum]

theorem ChanIn.angSum_sum (i : ChanIn w) : i.angSum.op.sum = angWord i.us i.ds := by
  simp [ChanIn.angSum, AdderIn.sum, angWord, BitVec.sub_eq_add_neg, BitVec.neg_eq_not_add,
    BitVec.add_assoc]

/-- A channel after a reset: constant limits, and samples at least three cycles apart. -/
structure Fed (i : ℕ → ChanIn w) (n : ℕ) (max min : BitVec w) : Prop where
  reset : ResetThen (fun t => (i t).rstN) n
  spaced : Spaced 3 fun t => (i t).valid
  max_eq : ∀ t, (i t).max = max
  min_eq : ∀ t, (i t).min = min

/-- The samples of a channel that count. -/
def ChanIn.takenAt (i : ℕ → ChanIn w) : ℕ → Bool :=
  taken (fun t => (i t).rstN) fun t => (i t).valid

theorem Fed.latest_eq {i : ℕ → ChanIn w} {n : ℕ} {max min : BitVec w} (h : Fed i n max min)
    {u t : ℕ} (hu : ChanIn.takenAt i u = true) (hut : u < t) (htu : t ≤ u + 3) :
    latest (ChanIn.takenAt i) t = some u :=
  (spaced_taken h.spaced).latest_eq hu hut htu

/-- What the comparators need of the registers before them: `k` cycles after a sample its word is
there, valid, and it stays for two more. -/
theorem Fed.steady {i : ℕ → ChanIn w} {n : ℕ} {max min : BitVec w} (h : Fed i n max min) {k : ℕ}
    {value : ℕ → BitVec w} {valid : ℕ → Bool} {word : ℕ → BitVec w}
    (hvalid : ∀ t, 1 ≤ t → valid t = delay k (ChanIn.takenAt i) t)
    (hvalue : ∀ u t, ChanIn.takenAt i u = true → u + k ≤ t → t ≤ u + k + 2 → value t = word u) :
    Thold.Steady (fun t => (i t).thold (value t) (valid t))
      (delay k (ChanIn.takenAt i)) n max min where
  reset := h.reset
  valid := hvalid
  quiet t ht := by
    simp only [delay, Bool.and_eq_false_iff]
    exact Or.inr (h.reset.taken_of_lt (by omega))
  stable t ht := by
    have hv : k ≤ t ∧ ChanIn.takenAt i (t - k) = true := by simpa [delay] using ht
    simp only [ChanIn.thold]
    rw [hvalue (t - k) (t + 2) hv.2 (by omega) (by omega),
      hvalue (t - k) t hv.2 (by omega) (by omega)]
  max_eq := h.max_eq
  min_eq := h.min_eq

/-- A verdict on the words that reach the comparators is a verdict on the samples. -/
theorem elim_latest_delay {v : ℕ → Bool} {k t : ℕ} {f g : ℕ → Bool}
    (hfg : ∀ u, v u = true → f (u + k) = g u) :
    (latest (delay k v) t).elim false f = (latest v (t - k)).elim false g := by
  rw [latest_delay]
  cases hl : latest v (t - k) with
  | none => rfl
  | some u => exact hfg u (latest_eq_some_iff.mp hl).2.1

/-! ## The translation channel -/

namespace TransChan

variable {i : ℕ → ChanIn w} {n : ℕ} {max min : BitVec w} (s : TransChan A)

theorem run_sum (i : ℕ → ChanIn w) (t : ℕ) :
    (run transStep s i t).sum = run sumStep s.sum (fun t => (i t).transSum) t :=
  run_proj TransChan.sum (fun _ i => i.transSum) (fun _ _ => rfl) s i t

theorem run_thold (i : ℕ → ChanIn w) (t : ℕ) :
    (run transStep s i t).thold = run tholdStep s.thold
      (fun t => (i t).thold (run transStep s i t).trans (run transStep s i t).transValid) t :=
  run_proj TransChan.thold (fun s i => i.thold s.trans s.transValid) (fun _ _ => rfl) s i t

theorem transValid_run (i : ℕ → ChanIn w) (u : ℕ) :
    (run transStep s i (u + 4)).transValid =
      ((i (u + 3)).rstN && ((i (u + 2)).rstN && (i u).valid)) := by
  rw [run_succ, transStep, run_sum, SumStage.sumValidReg_run]
  rfl

theorem trans_run (i : ℕ → ChanIn w) (u : ℕ) :
    (run transStep s i (u + 4)).trans =
      if (i (u + 3)).rstN && ((i (u + 2)).rstN && (i u).valid) then
        transWord (i u).us (i u).ds
      else (run transStep s i (u + 3)).trans := by
  rw [run_succ, transStep, run_sum, SumStage.sumValidReg_run, SumStage.sumReg_run,
    ChanIn.transSum_sum]
  -- where `p_trans_divide` loads, `p_trans_reg` has taken the sum one edge before
  by_cases hv : ((i (u + 2)).transSum.rstN && (i u).transSum.op.valid) = true
  · rw [if_pos hv]
    rfl
  · simp only [Bool.not_eq_true] at hv
    have hv' : ((i (u + 2)).rstN && (i u).valid) = false := hv
    simp [hv, hv']

/-- The translation register shows the word of the last sample that is three cycles old. -/
theorem trans_eq (h : Fed i n max min) {t : ℕ} (ht : n ≤ t) :
    (run transStep s i t).trans = (latest (ChanIn.takenAt i) (t - 3)).elim
      (run transStep s i n).trans fun u => transWord (i u).us (i u).ds := by
  have hn := h.reset.three_le
  refine hold_delay_eq_latest (v := ChanIn.takenAt i) (r := fun t => (run transStep s i t).trans)
    ?_ (fun t ht => h.reset.taken_of_lt (by omega)) ht
  intro t ht
  obtain ⟨m, rfl⟩ := Nat.exists_eq_add_of_le' (show 3 ≤ t by omega)
  rw [trans_run, h.reset.high _ ht, Bool.true_and, delay_add, Nat.add_sub_cancel]
  rfl

theorem transValid_eq (h : Fed i n max min) {t : ℕ} (ht : 1 ≤ t) :
    (run transStep s i t).transValid = delay 4 (ChanIn.takenAt i) t := by
  obtain ⟨m, rfl⟩ := Nat.exists_eq_add_of_le' ht
  have hn := h.reset.three_le
  rcases Nat.lt_or_ge m 3 with hlt | hge
  · rw [run_succ, delay_of_lt (by omega)]
    simp [transStep, h.reset.low m (by omega)]
  · obtain ⟨m, rfl⟩ := Nat.exists_eq_add_of_le' hge
    have hd := h.reset.rstN_and_delay (fun t => (i t).valid) (show 2 ≤ 3 by omega) (m + 3)
    rw [delay_add] at hd
    rw [transValid_run, delay_add]
    exact hd

/-- A sample's translation stays in its register until the next one is divided. -/
theorem trans_of_valid (h : Fed i n max min) {u t : ℕ} (hu : ChanIn.takenAt i u = true)
    (h₁ : u + 4 ≤ t) (h₂ : t ≤ u + 6) :
    (run transStep s i t).trans = transWord (i u).us (i u).ds := by
  have hn := h.reset.le_of_taken hu
  rw [trans_eq s h (by omega), h.latest_eq hu (by omega) (by omega)]
  rfl

theorem steady (h : Fed i n max min) :
    Thold.Steady
      (fun t => (i t).thold (run transStep s i t).trans (run transStep s i t).transValid)
      (delay 4 (ChanIn.takenAt i)) n max min := by
  exact h.steady (fun t ht => transValid_eq s h ht)
    fun u t hu h₁ h₂ => trans_of_valid s h hu h₁ h₂

/-- **The translation verdict, bigger**: the result register compares the translation word of the
last sample that is six cycles old. -/
theorem biggerReg_eq (h : Fed i n max min) {t : ℕ} (ht : n ≤ t) :
    (run transStep s i t).thold.biggerReg = (latest (ChanIn.takenAt i) (t - 6)).elim false
      fun u => max.sle (transWord (i u).us (i u).ds) := by
  rw [run_thold, (steady s h).biggerReg_eq ht,
    elim_latest_delay fun u hu => congrArg max.sle (trans_of_valid s h hu le_rfl (by omega)),
    show t - 2 - 4 = t - 6 by omega]

/-- **The translation verdict, smaller**. -/
theorem smallerReg_eq (h : Fed i n max min) {t : ℕ} (ht : n ≤ t) :
    (run transStep s i t).thold.smallerReg = (latest (ChanIn.takenAt i) (t - 6)).elim false
      fun u => (transWord (i u).us (i u).ds).sle min := by
  rw [run_thold, (steady s h).smallerReg_eq ht,
    elim_latest_delay fun u hu =>
      congrArg (BitVec.sle · min) (trans_of_valid s h hu le_rfl (by omega)),
    show t - 2 - 4 = t - 6 by omega]

end TransChan

/-! ## The angle channel

The same pipeline without the division, so its verdicts are one edge earlier. -/

namespace AngChan

variable {i : ℕ → ChanIn w} {n : ℕ} {max min : BitVec w} (s : AngChan A)

theorem run_sum (i : ℕ → ChanIn w) (t : ℕ) :
    (run angStep s i t).sum = run sumStep s.sum (fun t => (i t).angSum) t :=
  run_proj AngChan.sum (fun _ i => i.angSum) (fun _ _ => rfl) s i t

theorem run_thold (i : ℕ → ChanIn w) (t : ℕ) :
    (run angStep s i t).thold = run tholdStep s.thold
      (fun t => (i t).thold (run angStep s i t).sum.sumReg (run angStep s i t).sum.sumValidReg)
      t :=
  run_proj AngChan.thold (fun s i => i.thold s.sum.sumReg s.sum.sumValidReg) (fun _ _ => rfl) s i t

/-- A sample's difference stays in the sum register until the next one is formed. -/
theorem sumReg_of_valid (h : Fed i n max min) {u t : ℕ} (hu : ChanIn.takenAt i u = true)
    (h₁ : u + 3 ≤ t) (h₂ : t ≤ u + 5) :
    (run angStep s i t).sum.sumReg = angWord (i u).us (i u).ds := by
  have hn := h.reset.le_of_taken hu
  have hl : latest (taken (fun t => (i t).angSum.rstN) fun t => (i t).angSum.op.valid)
      (t - 2) = some u :=
    h.latest_eq hu (by omega) (by omega)
  rw [run_sum, SumStage.sumReg_eq s.sum (i := fun t => (i t).angSum) h.reset (by omega), hl,
    Option.elim_some, ChanIn.angSum_sum]

theorem steady (h : Fed i n max min) :
    Thold.Steady
      (fun t => (i t).thold (run angStep s i t).sum.sumReg (run angStep s i t).sum.sumValidReg)
      (delay 3 (ChanIn.takenAt i)) n max min := by
  refine h.steady ?_ fun u t hu h₁ h₂ => sumReg_of_valid s h hu h₁ h₂
  intro t ht
  rw [run_sum]
  exact SumStage.sumValidReg_eq s.sum (i := fun t => (i t).angSum) h.reset ht

/-- **The angle verdict, bigger**: the result register compares the angle word of the last sample
that is five cycles old. -/
theorem biggerReg_eq (h : Fed i n max min) {t : ℕ} (ht : n ≤ t) :
    (run angStep s i t).thold.biggerReg = (latest (ChanIn.takenAt i) (t - 5)).elim false
      fun u => max.sle (angWord (i u).us (i u).ds) := by
  rw [run_thold, (steady s h).biggerReg_eq ht, elim_latest_delay fun u hu =>
    congrArg max.sle (sumReg_of_valid s h hu le_rfl (by omega)), show t - 2 - 3 = t - 5 by omega]

/-- **The angle verdict, smaller**. -/
theorem smallerReg_eq (h : Fed i n max min) {t : ℕ} (ht : n ≤ t) :
    (run angStep s i t).thold.smallerReg = (latest (ChanIn.takenAt i) (t - 5)).elim false
      fun u => (angWord (i u).us (i u).ds).sle min := by
  rw [run_thold, (steady s h).smallerReg_eq ht, elim_latest_delay fun u hu =>
    congrArg (BitVec.sle · min) (sumReg_of_valid s h hu le_rfl (by omega)),
    show t - 2 - 3 = t - 5 by omega]

end AngChan

end OrbitIntlk
