import BpmGateware.OrbitIntlk.Latch
import BpmGateware.OrbitIntlk.Spurious

/-!
# What a reset forgets

Two interlocks with different pasts are reset together and then given the same inputs. Their
valids agree as soon as the reset holds. The data registers between the stages are not reset, but
each is loaded with the same data before anything reads it, so the detection registers, the gate
and the latches agree. The level registers are in no reset branch: they keep what they were
before, and `p_out` samples them at the first edge after the release. So the two agree exactly
when their level registers agreed before the reset.

## Main definitions

* `ResetAlike inp inp' n`: both reset without samples for `n` cycles, then the same inputs

## Main results

* `Thold.reg_agree`, `det_agree`: the detection registers after the reset
* `flags_agree_iff`: when the two interlocks cannot be told apart
-/

namespace OrbitIntlk

open Clocked

variable {w : ℕ} {A : GcBigAdder2 w}

/-! ## A detector stage in two runs -/

/-- Two streams of inputs, of any kind: for `n ≥ 3` cycles both are in reset and none brings a
sample; from then on they are the same. -/
structure Alike {ι : Type} (rstN valid : ι → Bool) (i i' : ℕ → ι) (n : ℕ) : Prop where
  three_le : 3 ≤ n
  low : ∀ t < n, rstN (i t) = false ∧ rstN (i' t) = false
  quiet : ∀ t < n, valid (i t) = false ∧ valid (i' t) = false
  same : ∀ t, n ≤ t → i t = i' t

namespace Alike

variable {ι : Type} {rstN valid : ι → Bool} {i i' : ℕ → ι} {n : ℕ}

theorem rstN_eq (h : Alike rstN valid i i' n) (t : ℕ) : rstN (i t) = rstN (i' t) := by
  rcases Nat.lt_or_ge t n with hlt | hge
  · rw [(h.low t hlt).1, (h.low t hlt).2]
  · rw [h.same t hge]

theorem valid_eq (h : Alike rstN valid i i' n) (t : ℕ) : valid (i t) = valid (i' t) := by
  rcases Nat.lt_or_ge t n with hlt | hge
  · rw [(h.quiet t hlt).1, (h.quiet t hlt).2]
  · rw [h.same t hge]

theorem eq_of_rstN (h : Alike rstN valid i i' n) {t : ℕ} (hr : rstN (i t) = true) :
    n ≤ t ∧ i t = i' t := by
  have hn : n ≤ t := by
    by_contra hlt
    simp [(h.low t (by omega)).1] at hr
  exact ⟨hn, h.same t hn⟩

theorem eq_of_valid (h : Alike rstN valid i i' n) {t : ℕ} (hv : valid (i t) = true) :
    i t = i' t := by
  apply h.same
  by_contra hlt
  simp [(h.quiet t (by omega)).1] at hv

end Alike

section SumStage

variable {i i' : ℕ → SumIn w} {n : ℕ} (s s' : SumStage A)

/-- The edges that load the sum register. -/
def SumStage.loads (s : SumStage A) (i : SumIn w) : Bool := i.rstN && A.valid s.adder

theorem SumStage.loads_eq (h : Alike SumIn.rstN (fun i => i.op.valid) i i' n) (t : ℕ) :
    (run sumStep s i t).loads (i t) = (run sumStep s' i' t).loads (i' t) := by
  have hn := h.three_le
  simp only [SumStage.loads]
  rcases Nat.lt_or_ge t n with hlt | hge
  · rw [(h.low t hlt).1, (h.low t hlt).2, Bool.false_and, Bool.false_and]
  · obtain ⟨m, rfl⟩ := Nat.exists_eq_add_of_le' (show 2 ≤ t by omega)
    rw [h.rstN_eq, SumStage.adder_valid, SumStage.adder_valid, h.valid_eq]

theorem SumStage.sumValidReg_agree (h : Alike SumIn.rstN (fun i => i.op.valid) i i' n) {t : ℕ}
    (ht : 1 ≤ t) : (run sumStep s i t).sumValidReg = (run sumStep s' i' t).sumValidReg := by
  obtain ⟨m, rfl⟩ := Nat.exists_eq_add_of_le' ht
  exact SumStage.loads_eq s s' h m

/-- From the first sum after the reset on, the sum registers agree. -/
theorem SumStage.sumReg_agree (h : Alike SumIn.rstN (fun i => i.op.valid) i i' n) {x t : ℕ}
    (hx : 1 ≤ x) (hv : (run sumStep s i x).sumValidReg = true) (hxt : x ≤ t) :
    (run sumStep s i t).sumReg = (run sumStep s' i' t).sumReg := by
  have hn := h.three_le
  obtain ⟨m, rfl⟩ := Nat.exists_eq_add_of_le' hx
  refine hold_agree (v := fun t => (run sumStep s i t).loads (i t))
    (r := fun t => (run sumStep s i t).sumReg) (q := fun t => (run sumStep s' i' t).sumReg)
    (d := fun t => A.sum (run sumStep s i t).adder)
    (e := fun t => A.sum (run sumStep s' i' t).adder) (fun t => rfl) ?_ ?_ hv hxt
  · intro t
    rw [SumStage.loads_eq s s' h t]
    rfl
  · -- a sum that is loaded comes from a sample, and a sample is the same for both
    intro t ht
    obtain ⟨hr, hav⟩ := (Bool.and_eq_true _ _).mp ht
    have hnt := (h.eq_of_rstN hr).1
    obtain ⟨k, rfl⟩ := Nat.exists_eq_add_of_le' (show 2 ≤ t by omega)
    rw [SumStage.adder_valid] at hav
    rw [SumStage.adder_sum, SumStage.adder_sum, h.eq_of_valid hav]

end SumStage

section Thold

/-- Two streams of comparator inputs: valids that agree after the first edge, and from each valid
on the same values; out of reset the same limits, enables and clears. -/
structure Thold.Alike (i i' : ℕ → TholdIn w) (n : ℕ) : Prop where
  three_le : 3 ≤ n
  low : ∀ t < n, (i t).rstN = false ∧ (i' t).rstN = false
  same : ∀ t, n ≤ t → (i t).rstN = (i' t).rstN ∧ (i t).en = (i' t).en ∧ (i t).clr = (i' t).clr ∧
    (i t).max = (i' t).max ∧ (i t).min = (i' t).min
  valid : ∀ t, 1 ≤ t → (i t).valid = (i' t).valid
  late : ∀ t, 1 ≤ t → (i t).valid = true → n ≤ t
  value : ∀ x t, 1 ≤ x → (i x).valid = true → x ≤ t → (i t).value = (i' t).value

variable {i i' : ℕ → TholdIn w} {n : ℕ} (s s' : Thold A)

/-- Result registers that are cleared by the reset, and then loaded two edges after the same
valids with the same verdicts, agree. -/
theorem Thold.reg_agree (h : Thold.Alike i i' n) {r q f g : ℕ → Bool}
    (hlow : ∀ t, 1 ≤ t → t ≤ n → r t = false ∧ q t = false)
    (hr : ∀ t, r (t + 3) = if (i (t + 2)).rstN = false then false
      else if (i t).valid then f t else r (t + 2))
    (hq : ∀ t, q (t + 3) = if (i' (t + 2)).rstN = false then false
      else if (i' t).valid then g t else q (t + 2))
    (hf : ∀ t, 1 ≤ t → (i t).valid = true → f t = g t) {t : ℕ} (ht : 1 ≤ t) : r t = q t := by
  have hn := h.three_le
  induction t, ht using Nat.le_induction with
  | base => rw [(hlow 1 le_rfl (by omega)).1, (hlow 1 le_rfl (by omega)).2]
  | succ x hx ih =>
    rcases Nat.lt_or_ge x n with hlt | hge
    · rw [(hlow (x + 1) (by omega) hlt).1, (hlow (x + 1) (by omega) hlt).2]
    · -- the reset took at least three cycles, so the valid of two edges ago agrees
      obtain ⟨m, rfl⟩ := Nat.exists_eq_add_of_le' (show 2 ≤ x by omega)
      rw [hr, hq, (h.same (m + 2) hge).1, ← h.valid m (by omega), ih]
      by_cases hv : (i m).valid = true
      · rw [hf m (by omega) hv]
      · rw [if_neg hv, if_neg hv]

theorem Thold.biggerReg_agree (h : Thold.Alike i i' n) {t : ℕ} (ht : 1 ≤ t) :
    (run tholdStep s i t).biggerReg = (run tholdStep s' i' t).biggerReg := by
  refine Thold.reg_agree h (r := fun t => (run tholdStep s i t).biggerReg)
    (q := fun t => (run tholdStep s' i' t).biggerReg) ?_
    (Thold.biggerReg_run s i) (Thold.biggerReg_run s' i') ?_ ht
  · intro t h₁ hn
    obtain ⟨m, rfl⟩ := Nat.exists_eq_add_of_le' h₁
    simp [run_succ, tholdStep, h.low m (by omega)]
  · intro t h₁ hv
    have hn := h.late t h₁ hv
    rw [h.value t t h₁ hv le_rfl, h.value t (t + 2) h₁ hv (by omega), (h.same t hn).2.2.2.1,
      (h.same (t + 2) (by omega)).2.2.2.1]

theorem Thold.smallerReg_agree (h : Thold.Alike i i' n) {t : ℕ} (ht : 1 ≤ t) :
    (run tholdStep s i t).smallerReg = (run tholdStep s' i' t).smallerReg := by
  refine Thold.reg_agree h (r := fun t => (run tholdStep s i t).smallerReg)
    (q := fun t => (run tholdStep s' i' t).smallerReg) ?_
    (Thold.smallerReg_run s i) (Thold.smallerReg_run s' i') ?_ ht
  · intro t h₁ hn
    obtain ⟨m, rfl⟩ := Nat.exists_eq_add_of_le' h₁
    simp [run_succ, tholdStep, h.low m (by omega)]
  · intro t h₁ hv
    have hn := h.late t h₁ hv
    rw [h.value t t h₁ hv le_rfl, h.value t (t + 2) h₁ hv (by omega), (h.same t hn).2.2.2.2,
      (h.same (t + 2) (by omega)).2.2.2.2]

end Thold

/-! ## The channels in two runs -/

section Channels

variable {i i' : ℕ → ChanIn w} {n : ℕ}

theorem Alike.transSum (h : Alike ChanIn.rstN ChanIn.valid i i' n) :
    Alike SumIn.rstN (fun i => i.op.valid) (fun t => (i t).transSum) (fun t => (i' t).transSum) n :=
  ⟨h.three_le, h.low, h.quiet, fun t ht => congrArg ChanIn.transSum (h.same t ht)⟩

theorem Alike.angSum (h : Alike ChanIn.rstN ChanIn.valid i i' n) :
    Alike SumIn.rstN (fun i => i.op.valid) (fun t => (i t).angSum) (fun t => (i' t).angSum) n :=
  ⟨h.three_le, h.low, h.quiet, fun t ht => congrArg ChanIn.angSum (h.same t ht)⟩

/-- The comparators of two channels are fed alike if the registers before them agree as soon as
they are valid. -/
theorem Alike.thold (h : Alike ChanIn.rstN ChanIn.valid i i' n) {value value' : ℕ → BitVec w}
    {valid valid' : ℕ → Bool} (hvalid : ∀ t, 1 ≤ t → valid t = valid' t)
    (hlate : ∀ t, valid (t + 1) = true → (i t).rstN = true)
    (hvalue : ∀ x t, 1 ≤ x → valid x = true → x ≤ t → value t = value' t) :
    Thold.Alike (fun t => (i t).thold (value t) (valid t))
      (fun t => (i' t).thold (value' t) (valid' t)) n where
  three_le := h.three_le
  low := h.low
  same t ht := by simp [ChanIn.thold, h.same t ht]
  valid := hvalid
  late t ht hv := by
    obtain ⟨m, rfl⟩ := Nat.exists_eq_add_of_le' ht
    have := (h.eq_of_rstN (hlate m hv)).1
    omega
  value := hvalue

variable (s s' : TransChan A)

/-- The edges that load the translation register. -/
def TransChan.loads (s : TransChan A) (i : ChanIn w) : Bool := i.rstN && s.sum.sumValidReg

theorem TransChan.loads_eq (h : Alike ChanIn.rstN ChanIn.valid i i' n) (t : ℕ) :
    (run transStep s i t).loads (i t) = (run transStep s' i' t).loads (i' t) := by
  have hn := h.three_le
  simp only [TransChan.loads]
  rcases Nat.lt_or_ge t n with hlt | hge
  · rw [(h.low t hlt).1, (h.low t hlt).2, Bool.false_and, Bool.false_and]
  · rw [h.rstN_eq, TransChan.run_sum, TransChan.run_sum,
      SumStage.sumValidReg_agree s.sum s'.sum h.transSum (by omega)]

theorem TransChan.transValid_agree (h : Alike ChanIn.rstN ChanIn.valid i i' n) {t : ℕ}
    (ht : 1 ≤ t) : (run transStep s i t).transValid = (run transStep s' i' t).transValid := by
  obtain ⟨m, rfl⟩ := Nat.exists_eq_add_of_le' ht
  exact TransChan.loads_eq s s' h m

theorem TransChan.trans_agree (h : Alike ChanIn.rstN ChanIn.valid i i' n) {x t : ℕ}
    (hx : 1 ≤ x) (hv : (run transStep s i x).transValid = true) (hxt : x ≤ t) :
    (run transStep s i t).trans = (run transStep s' i' t).trans := by
  have hn := h.three_le
  obtain ⟨m, rfl⟩ := Nat.exists_eq_add_of_le' hx
  refine hold_agree (v := fun t => (run transStep s i t).loads (i t))
    (r := fun t => (run transStep s i t).trans) (q := fun t => (run transStep s' i' t).trans)
    (d := fun t => (run transStep s i t).sum.sumReg.sshiftRight 1)
    (e := fun t => (run transStep s' i' t).sum.sumReg.sshiftRight 1) (fun t => rfl) ?_ ?_ hv hxt
  · intro t
    rw [TransChan.loads_eq s s' h t]
    rfl
  · intro t ht
    obtain ⟨hr, hsv⟩ := (Bool.and_eq_true _ _).mp ht
    have hnt := (h.eq_of_rstN hr).1
    rw [TransChan.run_sum] at hsv
    rw [TransChan.run_sum, TransChan.run_sum,
      SumStage.sumReg_agree s.sum s'.sum h.transSum (by omega) hsv le_rfl]

theorem TransChan.thold_alike (h : Alike ChanIn.rstN ChanIn.valid i i' n) :
    Thold.Alike
      (fun t => (i t).thold (run transStep s i t).trans (run transStep s i t).transValid)
      (fun t => (i' t).thold (run transStep s' i' t).trans (run transStep s' i' t).transValid) n :=
  h.thold (fun _ ht => TransChan.transValid_agree s s' h ht)
    (fun _ hv => ((Bool.and_eq_true _ _).mp hv).1)
    fun _ _ hx hv hxt => TransChan.trans_agree s s' h hx hv hxt

theorem AngChan.thold_alike (s s' : AngChan A) (h : Alike ChanIn.rstN ChanIn.valid i i' n) :
    Thold.Alike
      (fun t => (i t).thold (run angStep s i t).sum.sumReg (run angStep s i t).sum.sumValidReg)
      (fun t => (i' t).thold (run angStep s' i' t).sum.sumReg
        (run angStep s' i' t).sum.sumValidReg) n := by
  refine h.thold ?_ (fun t hv => ((Bool.and_eq_true _ _).mp hv).1) ?_
  · intro t ht
    rw [AngChan.run_sum, AngChan.run_sum]
    exact SumStage.sumValidReg_agree s.sum s'.sum h.angSum ht
  · intro x t hx hv hxt
    rw [AngChan.run_sum] at hv
    rw [AngChan.run_sum, AngChan.run_sum]
    exact SumStage.sumReg_agree s.sum s'.sum h.angSum hx hv hxt

end Channels

/-! ## The interlock in two runs -/

/-- Two runs that are reset together, without samples, and given the same inputs afterwards. -/
def ResetAlike (inp inp' : ℕ → Input w) (n : ℕ) : Prop :=
  Alike Input.rstN (fun i => i.dsValid || i.usValid) inp inp' n

section Interlock

variable {inp inp' : ℕ → Input w} {n : ℕ} (h : ResetAlike inp inp' n) (s s' : State A)

include h

/-- A register that the reset clears agrees after the first edge, if out of reset its next value
is a function of what agrees. -/
theorem agree_of_reset {α : Type} (reg : State A → α) (z : α)
    (low : ∀ (s : State A) (i : Input w), i.rstN = false → reg (step s i) = z)
    (next : ∀ t, n ≤ t → reg (run step s inp t) = reg (run step s' inp' t) →
      reg (run step s inp (t + 1)) = reg (run step s' inp' (t + 1))) {t : ℕ} (ht : 1 ≤ t) :
    reg (run step s inp t) = reg (run step s' inp' t) := by
  have hn := h.three_le
  -- Induction on the cycle, from the first edge of the reset.
  induction t, ht using Nat.le_induction with
  | base =>
    obtain ⟨hr, hr'⟩ := h.low 0 (by omega)
    rw [run_succ, run_succ, low _ _ hr, low _ _ hr']
  | succ x hx ih =>
    rcases Nat.lt_or_ge x n with hlt | hge
    · obtain ⟨hr, hr'⟩ := h.low x hlt
      rw [run_succ, run_succ, low _ _ hr, low _ _ hr']
    · exact next x hge ih

theorem validOf_agree (b : Bpm) (t : ℕ) : (inp t).validOf b = (inp' t).validOf b := by
  rcases Nat.lt_or_ge t n with hlt | hge
  · have hq := h.quiet t hlt
    simp only [Bool.or_eq_false_iff] at hq
    cases b <;> simp [Input.validOf, hq]
  · rw [h.same t hge]

theorem sumBiggerReg_agree (b : Bpm) {t : ℕ} (ht : 1 ≤ t) :
    (run step s inp t).sumBiggerReg b = (run step s' inp' t).sumBiggerReg b := by
  have hn := h.three_le
  refine agree_of_reset h s s' (fun s => s.sumBiggerReg b) false
    (fun s i hr => by simp [step, hr]) ?_ ht
  intro t ht ih
  obtain ⟨m, rfl⟩ := Nat.exists_eq_add_of_le' (show 2 ≤ t by omega)
  rw [Operation.sumBiggerReg_run, Operation.sumBiggerReg_run, h.same _ ht, ih,
    validOf_agree h b m]
  by_cases hv : (inp' m).validOf b = true
  · have hm : inp m = inp' m := by
      apply h.same
      by_contra hlt
      have hq := (h.quiet m (by omega)).2
      simp only [Bool.or_eq_false_iff] at hq
      cases b <;> simp [Input.validOf, hq] at hv
    rw [hm]
  · simp [hv]

theorem sumBiggerAny_agree {t : ℕ} (ht : 1 ≤ t) :
    (run step s inp t).sumBiggerAny = (run step s' inp' t).sumBiggerAny := by
  have hn := h.three_le
  refine agree_of_reset h s s' State.sumBiggerAny false (fun s i hr => by simp [step, hr]) ?_ ht
  intro t ht _
  simp only [run_succ, step, h.same t ht, sumBiggerReg_agree h s s' _ (show 1 ≤ t by omega)]

theorem masterEn_agree (d : Detector) {t : ℕ} (ht : 1 ≤ t) :
    (run step s inp t).masterEn d = (run step s' inp' t).masterEn d := by
  have hn := h.three_le
  refine agree_of_reset h s s' (fun s => s.masterEn d) false
    (fun s i hr => by cases d <;> simp [step, State.masterEn, hr]) ?_ ht
  intro t ht _
  cases d <;> simp only [run_succ, step, State.masterEn, State.sumBiggerEn, h.same t ht,
    sumBiggerAny_agree h s s' (show 1 ≤ t by omega)]

theorem transIn_alike (a : Axis) :
    Alike ChanIn.rstN ChanIn.valid (fun t => (run step s inp t).transIn (inp t) a)
      (fun t => (run step s' inp' t).transIn (inp' t) a) n where
  three_le := h.three_le
  low := h.low
  quiet t ht := by
    have hq := h.quiet t ht
    simp only [Bool.or_eq_false_iff] at hq
    simp [State.transIn, Input.posValid, hq]
  same t ht := by
    have hn := h.three_le
    have hen := masterEn_agree h s s' .trans (show 1 ≤ t by omega)
    simp only [State.masterEn] at hen
    simp only [State.transIn, h.same t ht, hen]

theorem angIn_alike (a : Axis) :
    Alike ChanIn.rstN ChanIn.valid (fun t => (run step s inp t).angIn (inp t) a)
      (fun t => (run step s' inp' t).angIn (inp' t) a) n where
  three_le := h.three_le
  low := h.low
  quiet t ht := by
    have hq := h.quiet t ht
    simp only [Bool.or_eq_false_iff] at hq
    simp [State.angIn, Input.posValid, hq]
  same t ht := by
    have hn := h.three_le
    have hen := masterEn_agree h s s' .ang (show 1 ≤ t by omega)
    simp only [State.masterEn] at hen
    simp only [State.angIn, h.same t ht, hen]

/-- **The detection registers agree** after the first edge of the reset. -/
theorem det_agree (d : Detector) (a : Axis) (k : Side) {t : ℕ} (ht : 1 ≤ t) :
    (run step s inp t).det d a k = (run step s' inp' t).det d a k := by
  cases d with
  | trans =>
    have ha := TransChan.thold_alike (s.trans a) (s'.trans a) (transIn_alike h s s' a)
    cases k
    · simp only [State.det, State.thold, Operation.run_trans, TransChan.run_thold]
      exact Thold.biggerReg_agree _ _ ha ht
    · simp only [State.det, State.thold, Operation.run_trans, TransChan.run_thold]
      exact Thold.smallerReg_agree _ _ ha ht
  | ang =>
    have ha := AngChan.thold_alike (s.ang a) (s'.ang a) (angIn_alike h s s' a)
    cases k
    · simp only [State.det, State.thold, Operation.run_ang, AngChan.run_thold]
      exact Thold.biggerReg_agree _ _ ha ht
    · simp only [State.det, State.thold, Operation.run_ang, AngChan.run_thold]
      exact Thold.smallerReg_agree _ _ ha ht

theorem latched_agree (d : Detector) (a : Axis) (k : Side) {t : ℕ} (ht : 1 ≤ t) :
    (run step s inp t).latched d a k = (run step s' inp' t).latched d a k := by
  have hn := h.three_le
  refine agree_of_reset h s s' (fun s => s.latched d a k) false
    (fun s i hr => by simp [latched_step, ltcNext, hr]) ?_ ht
  intro t ht ih
  rw [run_succ, run_succ, latched_step, latched_step, ih, h.same t ht, State.sets, State.sets,
    det_agree h s s' d a k (by omega), masterEn_agree h s s' d (by omega)]

/-- **The level registers agree if they agreed before the reset**, which does not touch them. -/
theorem level_agree (hlev : s.level = s'.level) (t : ℕ) :
    (run step s inp t).level = (run step s' inp' t).level := by
  have hn := h.three_le
  induction t with
  | zero => exact hlev
  | succ t ih =>
    rcases Nat.lt_or_ge t n with hlt | hge
    · rw [run_succ, run_succ, level_step_reset _ (h.low t hlt).1,
        level_step_reset _ (h.low t hlt).2, ih]
    · funext d a k
      rw [run_succ, run_succ, level_step, level_step, ih, h.same t hge,
        det_agree h s s' d a k (by omega), masterEn_agree h s s' d (by omega)]

omit h in
theorem intlkAll_eq_of_level {s s' : State A} (hlev : s.level = s'.level) (i : Input w) :
    s.intlkAll i = s'.intlkAll i := by
  have hup : (s.intlkTrans || s.intlkAng) = (s'.intlkTrans || s'.intlkAng) := by
    rw [Bool.eq_iff_iff, exists_intlkOf, exists_intlkOf]
    simp only [intlkOf_eq_true, hlev]
  rw [State.intlkAll, State.intlkAll, hup]

theorem intlkLtc_agree (hlev : s.level = s'.level) {t : ℕ} (ht : 1 ≤ t) :
    (run step s inp t).intlkLtc = (run step s' inp' t).intlkLtc := by
  refine agree_of_reset h s s' State.intlkLtc false
    (fun s i hr => by simp [step, ltcNext, hr]) ?_ ht
  intro t ht ih
  simp only [run_succ, step, ih, h.same t ht,
    intlkAll_eq_of_level (level_agree h s s' hlev t)]

theorem intlk_agree (hlev : s.level = s'.level) {t : ℕ} (ht : 1 ≤ t) :
    (run step s inp t).intlk = (run step s' inp' t).intlk := by
  refine agree_of_reset h s s' State.intlk false (fun s i hr => by simp [step, hr]) ?_ ht
  intro t ht _
  simp only [run_succ, step, h.same t ht,
    intlkAll_eq_of_level (level_agree h s s' hlev t)]

end Interlock

/-- The flag outputs are the per-axis flags, their ORs, and three registers more. -/
theorem flags_eq {s s' : State A} (hlev : s.level = s'.level) (hltc : s.latched = s'.latched)
    (hsum : s.sumBiggerAny = s'.sumBiggerAny) (hl : s.intlkLtc = s'.intlkLtc)
    (hi : s.intlk = s'.intlk) : s.flags = s'.flags := by
  have h₁ := fun a k => congrFun (congrFun (congrFun hlev .trans) a) k
  have h₂ := fun a k => congrFun (congrFun (congrFun hlev .ang) a) k
  have h₃ := fun a k => congrFun (congrFun (congrFun hltc .trans) a) k
  have h₄ := fun a k => congrFun (congrFun (congrFun hltc .ang) a) k
  simp only [State.level, State.latched, State.thold] at h₁ h₂ h₃ h₄
  simp only [State.flags, detectorFlags, hsum, hl, hi, fun a => h₁ a .bigger,
    fun a => h₁ a .smaller, fun a => h₂ a .bigger, fun a => h₂ a .smaller, fun a => h₃ a .bigger,
    fun a => h₃ a .smaller, fun a => h₄ a .bigger, fun a => h₄ a .smaller]

theorem level_eq_of_flags {s s' : State A} (h : s.flags = s'.flags) : s.level = s'.level := by
  simp only [State.flags, detectorFlags, Flags.mk.injEq, DetectorFlags.mk.injEq] at h
  obtain ⟨ht, ha, -⟩ := h
  funext d a k
  cases d <;> cases k
  · exact congrFun ht.1 a
  · exact congrFun ht.2.2.1 a
  · exact congrFun ha.1 a
  · exact congrFun ha.2.2.1 a

/-- **When a reset is complete**: two interlocks that are reset together and then given the same
inputs show the same flags at every cycle from the release on, exactly when their level registers
were the same when the reset began. -/
theorem flags_agree_iff (s s' : State A) {inp inp' : ℕ → Input w} {n : ℕ}
    (h : ResetAlike inp inp' n) :
    (∀ t, n ≤ t → (run step s inp t).flags = (run step s' inp' t).flags) ↔
      s.level = s'.level := by
  have hn := h.three_le
  constructor
  · -- at the release the level flags are still those from before the reset
    intro hflags
    have := level_eq_of_flags (hflags n le_rfl)
    rwa [level_run_reset s (fun t ht => (h.low t ht).1) le_rfl,
      level_run_reset s' (fun t ht => (h.low t ht).2) le_rfl] at this
  · intro hlev t ht
    have hltc : (run step s inp t).latched = (run step s' inp' t).latched := by
      funext d a k
      exact latched_agree h s s' d a k (by omega)
    exact flags_eq (level_agree h s s' hlev t) hltc
      (sumBiggerAny_agree h s s' (by omega)) (intlkLtc_agree h s s' hlev (by omega))
      (intlk_agree h s s' hlev (by omega))

/-- The interlock at work, twenty cycles after power-up: the pair of the limits test has just
raised its level flags. -/
def tripped : State (Adder.twoStage 32) :=
  run step (State.powerUp idleAdder) (scenario minSumConfig onePair) 20

theorem scenario_resetAlike (cfg : Config w) {f : ℕ → Option (Sample w × Sample w)}
    (hf : ∀ t < 8, f t = none) : ResetAlike (scenario cfg f) (scenario cfg f) 8 where
  three_le := by omega
  low t ht := by simp [scenario]; omega
  quiet t ht := by simp [scenario, hf t ht]
  same _ _ := rfl

/-- **A trip outlives the reset**: eight cycles of reset, no sample at all, and the general latch
is up again one edge after the release, where it stays down from power-up. -/
theorem trip_outlives_reset :
    tripped ∈ Reachable step {State.powerUp (A := Adder.twoStage 32) idleAdder} ∧
      State.powerUp idleAdder ∈ Reachable step {State.powerUp (A := Adder.twoStage 32) idleAdder} ∧
      ResetAlike (scenario minSumConfig fun _ => none) (scenario minSumConfig fun _ => none) 8 ∧
      (run step tripped (scenario minSumConfig fun _ => none) 9).intlkLtc = true ∧
      (run step (State.powerUp (A := Adder.twoStage 32) idleAdder)
        (scenario minSumConfig fun _ => none) 9).intlkLtc = false := by
  refine ⟨⟨_, rfl, scenario minSumConfig onePair, 20, rfl⟩,
    ⟨_, rfl, scenario minSumConfig onePair, 0, rfl⟩, scenario_resetAlike _ fun _ _ => rfl,
    by decide +kernel, by decide +kernel⟩

/-- What was in flight before a reset is forgotten: here a pair that had not yet tripped. -/
theorem inFlight_forgotten :
    (run step (State.powerUp (A := Adder.twoStage 32) idleAdder)
      (scenario minSumConfig onePair) 30).flags =
    (run step (run step (State.powerUp (A := Adder.twoStage 32) idleAdder)
      (scenario minSumConfig onePair) 12) (scenario minSumConfig onePair) 30).flags := by
  refine (flags_agree_iff _ _ (scenario_resetAlike minSumConfig ?_)).mpr ?_ 30
    (by omega)
  · intro t ht
    simp [onePair, show t ≠ 10 by omega]
  · funext d a k
    cases d <;> cases a <;> cases k <;> decide +kernel

end OrbitIntlk
