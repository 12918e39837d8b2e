import BpmGateware.OrbitIntlk.Detector

/-!
# Trips of the orbit interlock

What makes `intlk_ltc_o` go up. A sample pair trips by itself when it passes the sum gate and is
out of the limits of an enabled detector. After a reset, with the settings constant and the pairs
at least eight cycles apart, the sum gate shows the last pair that is four cycles old, the angle
detector the last that is five, the translation detector the last that is six. Gate and verdict
of a pair meet for long enough that no tripping pair is missed, wherever the clears fall.

## Main definitions

* `Input.PassesGate`, `Input.OutOfLimits`, `TripsAt`: what one pair does by itself
* `SetBy s inp e d u`: edge `e` sets the latch by the verdict of a detector on one pair
* `Operation inp n cfg`: a run after reset with constant settings and spaced pairs

## Main results

* `Operation.alarm_iff`: the samples an alarm is made of
* `Operation.intlkLtc_of_alarm`: when an alarm raises the latch
* `no_missed_trip`: every tripping pair raises the latch, and it stays up until it is cleared
-/

namespace OrbitIntlk

open Clocked

variable {w : ℕ} {A : GcBigAdder2 w}

/-! ## What one sample pair does by itself -/

namespace Input

/-- The translation word of an axis. -/
def trans (i : Input w) (a : Axis) : BitVec w := transWord (i.us.pos a) (i.ds.pos a)

/-- The angle word of an axis. -/
def ang (i : Input w) (a : Axis) : BitVec w := angWord (i.us.pos a) (i.ds.pos a)

/-- The DS or the US sum is at or above the minimum sum. -/
def SumReached (i : Input w) : Prop :=
  i.cfg.minSum.toNat ≤ i.ds.sum.toNat ∨ i.cfg.minSum.toNat ≤ i.us.sum.toNat

/-- The pair passes the sum gate. -/
def PassesGate (i : Input w) : Prop := i.cfg.minSumEn = false ∨ i.SumReached

/-- The translation is at or beyond a limit, in X or in Y. -/
def TransOut (i : Input w) : Prop :=
  ∃ a, (i.cfg.transMax a).toInt ≤ (i.trans a).toInt ∨ (i.trans a).toInt ≤ (i.cfg.transMin a).toInt

/-- The angle is at or beyond a limit, in X or in Y. -/
def AngOut (i : Input w) : Prop :=
  ∃ a, (i.cfg.angMax a).toInt ≤ (i.ang a).toInt ∨ (i.ang a).toInt ≤ (i.cfg.angMin a).toInt

/-- The pair is out of the limits of an enabled detector. -/
def OutOfLimits (i : Input w) : Prop :=
  (i.cfg.transEn = true ∧ i.TransOut) ∨ (i.cfg.angEn = true ∧ i.AngOut)

end Input

instance (i : Input w) : Decidable i.TransOut := decidable_of_iff _ exists_axis.symm

instance (i : Input w) : Decidable i.AngOut := decidable_of_iff _ exists_axis.symm

instance (i : Input w) : Decidable i.OutOfLimits :=
  inferInstanceAs (Decidable ((_ = true ∧ i.TransOut) ∨ (_ = true ∧ i.AngOut)))

instance (i : Input w) : Decidable i.PassesGate :=
  inferInstanceAs (Decidable (_ = false ∨ (_ ≤ _ ∨ _ ≤ _)))

/-! ## The detectors by index -/

/-- The enable of a detector. -/
def Config.en (cfg : Config w) : Detector → Bool
  | .trans => cfg.transEn
  | .ang => cfg.angEn

/-- The word a detector compares. -/
def Input.word (i : Input w) (d : Detector) (a : Axis) : BitVec w :=
  match d with
  | .trans => i.trans a
  | .ang => i.ang a

/-- The verdict of a comparator on a word. -/
def Config.verdict (cfg : Config w) (d : Detector) (a : Axis) (k : Side) (v : BitVec w) : Bool :=
  match d, k with
  | .trans, .bigger => (cfg.transMax a).sle v
  | .trans, .smaller => v.sle (cfg.transMin a)
  | .ang, .bigger => (cfg.angMax a).sle v
  | .ang, .smaller => v.sle (cfg.angMin a)

/-- The pair is at or beyond a limit of a detector. -/
def Input.Out (i : Input w) (d : Detector) : Prop :=
  ∃ a k, i.cfg.verdict d a k (i.word d a) = true

/-- The age of the pair whose verdict a detector shows: the translation has one stage more. -/
def Detector.latency : Detector → ℕ
  | .trans => 6
  | .ang => 5

theorem Detector.five_le_latency (d : Detector) : 5 ≤ d.latency := by cases d <;> decide

theorem Detector.latency_le_six (d : Detector) : d.latency ≤ 6 := by cases d <;> decide

theorem Input.outOfLimits_iff {i : Input w} :
    i.OutOfLimits ↔ ∃ d, i.cfg.en d = true ∧ i.Out d := by
  simp only [Input.OutOfLimits, Input.TransOut, Input.AngOut, exists_detector, Config.en,
    Input.Out, exists_side, Config.verdict, Input.word, BitVec.sle_iff_toInt_le]

/-! ## Alarms -/

/-- A detector is enabled and one of its result registers is up. -/
def State.alarm (s : State A) (d : Detector) : Bool :=
  s.masterEn d && (orAxes (fun a => s.det d a .bigger) || orAxes fun a => s.det d a .smaller)

theorem alarm_eq_true {s : State A} {d : Detector} :
    s.alarm d = true ↔ s.masterEn d = true ∧ ∃ a k, s.det d a k = true := by
  simp only [State.alarm, Bool.and_eq_true, Bool.or_eq_true, orAxes_eq_true, ← exists_or,
    exists_side]

theorem levelNext_true (clr en det level : Bool) :
    levelNext true clr en det level = (!clr && (en && det)) := by
  cases clr <;> cases en <;> simp [levelNext]

theorem ltcNext_true (clr set ltc : Bool) :
    ltcNext true clr set ltc = if clr then false else if set then true else ltc := rfl

theorem orAxes_and (b : Bool) (f : Axis → Bool) : orAxes (fun a => b && f a) = (b && orAxes f) := by
  cases b <;> simp [orAxes]

/-- Out of reset, a detector trips on the alarm of the cycle before, unless it is cleared. -/
theorem intlkOf_step (s : State A) {i : Input w} (hr : i.rstN = true) (d : Detector) :
    (step s i).intlkOf d = (!i.clrOf d && s.alarm d) := by
  simp only [State.intlkOf, level_step, hr, levelNext_true, orAxes_and, State.alarm]
  rw [← Bool.and_or_distrib_left, ← Bool.and_or_distrib_left]

/-! ## Runs after a reset -/

/-- **A run of the interlock after a reset**: reset is held for `n ≥ 3` cycles and not again, the
settings are constant, DS and US samples come as pairs, and the pairs are at least eight cycles
apart. -/
structure Operation (inp : ℕ → Input w) (n : ℕ) (cfg : Config w) : Prop where
  reset : ResetThen (fun t => (inp t).rstN) n
  cfg_eq : ∀ t, (inp t).cfg = cfg
  paired : ∀ t, (inp t).dsValid = (inp t).usValid
  spaced : Spaced 8 fun t => (inp t).posValid

/-- The pairs the interlock takes in: all those after the reset, and those that were in the first
adders when it ended. -/
def pairAt (inp : ℕ → Input w) : ℕ → Bool :=
  taken (fun t => (inp t).rstN) fun t => (inp t).posValid

/-- The pair of cycle `u` trips the interlock by itself. -/
def TripsAt (inp : ℕ → Input w) (u : ℕ) : Prop :=
  pairAt inp u = true ∧ (inp u).PassesGate ∧ (inp u).OutOfLimits

/-- Edge `e` sets the latch by the verdict of a detector on the pair of cycle `u`: the level flag of
the detector is up from the cycle before, in which the detector shows that pair. -/
structure SetBy (s : State A) (inp : ℕ → Input w) (e : ℕ) (d : Detector) (u : ℕ) : Prop where
  level : (run step s inp e).intlkOf d = true
  pair : latest (pairAt inp) (e - 1 - d.latency) = some u
  not_clr : (inp e).clr = false

namespace Operation

variable {inp : ℕ → Input w} {n : ℕ} {cfg : Config w} (s : State A)

theorem pairAt_eq (h : Operation inp n cfg) {t : ℕ} (ht : n ≤ t + 2) :
    pairAt inp t = (inp t).posValid :=
  h.reset.taken_of_le ht

theorem le_of_pairAt (h : Operation inp n cfg) {t : ℕ} (ht : pairAt inp t = true) : n ≤ t + 2 :=
  h.reset.le_of_taken ht

theorem pairAt_spaced (h : Operation inp n cfg) : Spaced 8 (pairAt inp) := spaced_taken h.spaced

theorem validOf_eq (h : Operation inp n cfg) (b : Bpm) (t : ℕ) :
    (inp t).validOf b = (inp t).posValid := by
  cases b <;> simp [Input.validOf, Input.posValid, h.paired t]

theorem run_trans (inp : ℕ → Input w) (a : Axis) (t : ℕ) :
    (run step s inp t).trans a =
      run transStep (s.trans a) (fun t => (run step s inp t).transIn (inp t) a) t :=
  run_proj (fun s : State A => s.trans a) (fun s i => s.transIn i a) (fun _ _ => rfl) s inp t

theorem run_ang (inp : ℕ → Input w) (a : Axis) (t : ℕ) :
    (run step s inp t).ang a =
      run angStep (s.ang a) (fun t => (run step s inp t).angIn (inp t) a) t :=
  run_proj (fun s : State A => s.ang a) (fun s i => s.angIn i a) (fun _ _ => rfl) s inp t

theorem run_sumAdder (inp : ℕ → Input w) (b : Bpm) (t : ℕ) :
    (run step s inp t).sumAdder b = run A.step (s.sumAdder b)
      (fun t => ⟨(inp t).validOf b, (inp t).sumOf b, ~~~(inp t).cfg.minSum, true⟩) t :=
  run_proj (fun s : State A => s.sumAdder b)
    (fun _ i => (⟨i.validOf b, i.sumOf b, ~~~i.cfg.minSum, true⟩ : AdderIn w))
    (fun _ _ => rfl) s inp t

theorem fed_trans (h : Operation inp n cfg) (a : Axis) :
    Fed (fun t => (run step s inp t).transIn (inp t) a) n (cfg.transMax a) (cfg.transMin a) where
  reset := h.reset
  spaced u x hu hx hx' := h.spaced u x hu hx (by omega)
  max_eq t := by simp [State.transIn, h.cfg_eq]
  min_eq t := by simp [State.transIn, h.cfg_eq]

theorem fed_ang (h : Operation inp n cfg) (a : Axis) :
    Fed (fun t => (run step s inp t).angIn (inp t) a) n (cfg.angMax a) (cfg.angMin a) where
  reset := h.reset
  spaced u x hu hx hx' := h.spaced u x hu hx (by omega)
  max_eq t := by simp [State.angIn, h.cfg_eq]
  min_eq t := by simp [State.angIn, h.cfg_eq]

/-! ### The sum gate -/

/-- The result register of a monitor: loaded two edges after its valid, without sign. -/
theorem sumBiggerReg_run (inp : ℕ → Input w) (b : Bpm) (t : ℕ) :
    (run step s inp (t + 3)).sumBiggerReg b =
      if (inp (t + 2)).rstN = false then false
      else if (inp t).validOf b then (inp t).cfg.minSum.ule ((inp t).sumOf b)
      else (run step s inp (t + 2)).sumBiggerReg b := by
  rw [run_succ]
  simp only [step, run_sumAdder, A.valid_run, A.carry_run, AdderIn.carry, carry_not_eq]

theorem sumBiggerReg_eq (h : Operation inp n cfg) (b : Bpm) {t : ℕ} (ht : n ≤ t) :
    (run step s inp t).sumBiggerReg b = (latest (pairAt inp) (t - 2)).elim false
      fun u => cfg.minSum.ule ((inp u).sumOf b) := by
  have hn := h.reset.three_le
  have h₀ : (run step s inp n).sumBiggerReg b = false := by
    obtain ⟨m, rfl⟩ := Nat.exists_eq_add_of_le' (show 1 ≤ n by omega)
    simp [run_succ, step, h.reset.low m (by omega)]
  rw [← h₀]
  refine hold_delay_eq_latest (r := fun t => (run step s inp t).sumBiggerReg b) ?_
    (fun t ht => h.reset.taken_of_lt ht) ht
  intro t ht
  obtain ⟨m, rfl⟩ := Nat.exists_eq_add_of_le' (show 2 ≤ t by omega)
  have hr := h.reset.high _ ht
  rw [sumBiggerReg_run, if_neg (by simp [hr]), h.validOf_eq, h.cfg_eq, delay_add,
    Nat.add_sub_cancel, h.reset.taken_of_le ht]

theorem sumBiggerAny_eq (h : Operation inp n cfg) {t : ℕ} (ht : n ≤ t) :
    (run step s inp (t + 1)).sumBiggerAny = true ↔
      ∃ v, latest (pairAt inp) (t - 2) = some v ∧ (inp v).SumReached := by
  have hr := h.reset.high t ht
  simp only [run_succ, step, hr, Bool.true_and, sumBiggerReg_eq s h _ ht]
  cases latest (pairAt inp) (t - 2) with
  | none => simp
  | some v => simp [Input.SumReached, Input.sumOf, h.cfg_eq, BitVec.ule_iff_toNat_le]

/-- The gate lets verdicts through at a cycle whose last pair, seen through the gate's pipeline,
is the last before `t`. -/
def GateOpen (inp : ℕ → Input w) (cfg : Config w) (t : ℕ) : Prop :=
  cfg.minSumEn = false ∨
    ∃ v, latest (pairAt inp) t = some v ∧ (inp v).SumReached

/-- The gate shows the last pair that is three cycles old. -/
theorem sumBiggerEn_iff (h : Operation inp n cfg) {t : ℕ} (ht : n ≤ t) :
    (run step s inp t).sumBiggerEn (inp t) = true ↔ GateOpen inp cfg (t - 3) := by
  have hn := h.reset.three_le
  rw [State.sumBiggerEn, h.cfg_eq, GateOpen]
  obtain ⟨m, rfl⟩ := Nat.exists_eq_add_of_le' (show 1 ≤ t by omega)
  by_cases hm : cfg.minSumEn = false
  · simp [hm]
  · rw [if_neg hm, or_iff_right hm]
    rcases Nat.lt_or_ge m n with hlt | hge
    · have hq : latest (pairAt inp) (m + 1 - 3) = none :=
        latest_eq_none_iff.mpr fun x hx => h.reset.taken_of_lt (by omega)
      rw [hq]
      simp [run_succ, step, h.reset.low m hlt]
    · rw [sumBiggerAny_eq s h hge, show m + 1 - 3 = m - 2 by omega]

theorem masterEn_iff (h : Operation inp n cfg) (d : Detector) {t : ℕ} (ht : n ≤ t) :
    (run step s inp (t + 1)).masterEn d = true ↔
      cfg.en d = true ∧ GateOpen inp cfg (t - 3) := by
  have hr := h.reset.high t ht
  rw [← sumBiggerEn_iff s h ht]
  cases d <;>
    simp only [run_succ, step, State.masterEn, Config.en, hr, Bool.true_and, Bool.and_eq_true,
      h.cfg_eq]

/-! ### The verdicts -/

/-- **The verdict a detector shows** is that on the last pair of its age. -/
theorem det_eq (h : Operation inp n cfg) (d : Detector) (a : Axis) (k : Side) {t : ℕ}
    (ht : n ≤ t) :
    (run step s inp t).det d a k =
      (latest (pairAt inp) (t - d.latency)).elim false
        fun u => cfg.verdict d a k ((inp u).word d a) := by
  cases d with
  | trans =>
    have hfed := h.fed_trans s a
    cases k
    · simp only [State.det, State.thold, run_trans]
      exact TransChan.biggerReg_eq _ hfed ht
    · simp only [State.det, State.thold, run_trans]
      exact TransChan.smallerReg_eq _ hfed ht
  | ang =>
    have hfed := h.fed_ang s a
    cases k
    · simp only [State.det, State.thold, run_ang]
      exact AngChan.biggerReg_eq _ hfed ht
    · simp only [State.det, State.thold, run_ang]
      exact AngChan.smallerReg_eq _ hfed ht

theorem exists_det_iff (h : Operation inp n cfg) (d : Detector) {t : ℕ} (ht : n ≤ t) :
    (∃ a k, (run step s inp t).det d a k = true) ↔
      ∃ u, latest (pairAt inp) (t - d.latency) = some u ∧ (inp u).Out d := by
  simp only [det_eq s h d _ _ ht]
  cases latest (pairAt inp) (t - d.latency) with
  | none => simp
  | some u => simp [Input.Out, h.cfg_eq]

/-- **The samples an alarm is made of**: the gate of the last pair four cycles old, and the verdict
on the last pair that is as old as the detector is deep. -/
theorem alarm_iff (h : Operation inp n cfg) (d : Detector) {t : ℕ} (ht : n < t) :
    (run step s inp t).alarm d = true ↔ cfg.en d = true ∧ GateOpen inp cfg (t - 4) ∧
      ∃ u, latest (pairAt inp) (t - d.latency) = some u ∧ (inp u).Out d := by
  obtain ⟨m, rfl⟩ := Nat.exists_eq_add_of_le' (show 1 ≤ t by omega)
  rw [alarm_eq_true, masterEn_iff s h d (by omega), exists_det_iff s h d (by omega),
    show m + 1 - 4 = m - 3 by omega, and_assoc]

/-- At the release no detector is enabled. -/
theorem alarm_release (h : Operation inp n cfg) (d : Detector) :
    (run step s inp n).alarm d = false := by
  have hn := h.reset.three_le
  obtain ⟨m, rfl⟩ := Nat.exists_eq_add_of_le' (show 1 ≤ n by omega)
  have hr := h.reset.low m (by omega)
  cases d <;> simp [State.alarm, State.masterEn, run_succ, step, hr]

/-! ### The latch -/

theorem intlkLtc_release (h : Operation inp n cfg) : (run step s inp n).intlkLtc = false := by
  have hn := h.reset.three_le
  obtain ⟨m, rfl⟩ := Nat.exists_eq_add_of_le' (show 1 ≤ n by omega)
  simp [run_succ, step, ltcNext, h.reset.low m (by omega)]

theorem intlkLtc_iff (h : Operation inp n cfg) {t : ℕ} (ht : n ≤ t) :
    (run step s inp t).intlkLtc = true ↔ ∃ e, n ≤ e ∧
      LatchedAt (fun e => (run step s inp e).intlkAll (inp e)) (fun e => (inp e).clr) t e := by
  refine latch_eq_true_iff (l := fun t => (run step s inp t).intlkLtc) ?_
    (h.intlkLtc_release s) ht
  intro t ht
  simp only [run_succ, step, h.reset.high t ht, ltcNext_true]

/-- An alarm that is not cleared at its own edge brings up the level flag. -/
theorem intlkOf_of_alarm (h : Operation inp n cfg) {c : ℕ} (hc : n ≤ c) {d : Detector}
    (hal : (run step s inp c).alarm d = true) (hcl : (inp c).clrOf d = false) :
    (run step s inp (c + 1)).intlkOf d = true := by
  rw [run_succ, intlkOf_step _ (h.reset.high c hc), hal, hcl]
  rfl

/-- An alarm that is not cleared at its own edge nor at the next raises the latch. -/
theorem intlkLtc_of_alarm (h : Operation inp n cfg) (hen : cfg.intlkEn = true) {c : ℕ} (hc : n ≤ c)
    {d : Detector} (hal : (run step s inp c).alarm d = true) (hcl : (inp c).clrOf d = false)
    (hclr : (inp (c + 1)).clr = false) : (run step s inp (c + 2)).intlkLtc = true := by
  have hlev := h.intlkOf_of_alarm s hc hal hcl
  refine (h.intlkLtc_iff s (by omega)).mpr ⟨c + 1, by omega, by omega, ?_, ?_⟩
  · simp only [State.intlkAll, h.cfg_eq, hen, Bool.and_true]
    exact exists_intlkOf.mpr ⟨d, hlev⟩
  · intro x hx hx'
    rwa [show x = c + 1 by omega]

end Operation

/-! ## Scenarios -/

section Scenario

/-- Eight cycles of reset, then the sample pairs of `f`, and no clear. -/
def scenario (cfg : Config w) (f : ℕ → Option (Sample w × Sample w)) (t : ℕ) : Input w where
  rstN := decide (8 ≤ t)
  cfg := cfg
  clr := false
  transClr := false
  angClr := false
  ds := (f t).elim ⟨0, 0, 0, 0⟩ Prod.fst
  us := (f t).elim ⟨0, 0, 0, 0⟩ Prod.snd
  dsValid := (f t).isSome
  usValid := (f t).isSome

theorem scenario_operation (cfg : Config w) {f : ℕ → Option (Sample w × Sample w)}
    (hs : Spaced 8 fun t => (f t).isSome) : Operation (scenario cfg f) 8 cfg where
  reset :=
    { low := fun t ht => by simp [scenario]; omega
      high := fun t ht => by simp [scenario, ht]
      three_le := by omega }
  cfg_eq _ := rfl
  paired _ := rfl
  spaced u x hu hx hx' := by
    simp only [scenario, Input.posValid, Bool.and_self] at hu ⊢
    exact hs u x hu hx hx'

/-- The settings of the testbench for its minimum-sum test. -/
def minSumConfig : Config 32 where
  intlkEn := true
  minSumEn := true
  minSum := 0x1000
  transEn := true
  transMax _ := 0x100000
  transMin _ := 0
  angEn := false
  angMax _ := 0x155CC0
  angMin _ := 0

/-- One pair of the testbench's limits test: out of limits, with a large sum. -/
def onePair (t : ℕ) : Option (Sample 32 × Sample 32) :=
  if t = 10 then
    some (⟨0x1000000, 0x1000000, 0, 0x10000⟩, ⟨0x1000000, 0x1000000, 0, 0x10000⟩)
  else none

/-- Adders that have seen no operands. -/
def idleAdder : (Adder.twoStage 32).State := (⟨false, 0, 0, false⟩, ⟨false, 0, 0, false⟩)

theorem onePair_spaced : Spaced 8 fun t => (onePair t).isSome := by
  intro u x hu hx hx'
  have hu' : u = 10 := by
    by_contra hne
    simp [onePair, hne] at hu
  simp [onePair, show x ≠ 10 by omega]

end Scenario

section Missed

variable {inp : ℕ → Input w} {n : ℕ} {cfg : Config w}

/-! ## No trip is missed -/

namespace Operation

/-- While no later pair has reached the gate, the verdict on a tripping pair stands. -/
theorem latest_pairAt {u c k : ℕ} (hu : pairAt inp u = true) (hc : u + 7 ≤ c) (hk : 4 ≤ k)
    (hk' : k ≤ 6) (hno : ∀ y, u < y → y < c - 4 → pairAt inp y = false) :
    latest (pairAt inp) (c - k) = some u :=
  latest_eq_some_iff.mpr ⟨by omega, hu, fun x hx hx' => hno x hx (by omega)⟩

/-- A tripping pair has three cycles in a row, without a sample in them or right after, in which
its gate and its verdict meet: after the next pair, or when there is none. -/
theorem exists_window (h : Operation inp n cfg) {u : ℕ} (hu : pairAt inp u = true) :
    ∃ m, u + 7 ≤ m ∧ (∀ x, m ≤ x → x ≤ m + 3 → (inp x).posValid = false) ∧
      (∀ y, u < y → y < m - 2 → pairAt inp y = false) ∧
      ∀ v, u < v → pairAt inp v = true → m ≤ v + 1 := by
  have hn := h.le_of_pairAt hu
  rcases exists_consecutive_or_last hu with ⟨v, -, hv, huv, hno⟩ | hlast
  · have hsp : u + 8 ≤ v := by
      by_contra hlt
      simp [h.pairAt_spaced u v hu huv (by omega)] at hv
    -- the three cycles after the next pair: it has not reached the gate, and no other is near
    refine ⟨v + 1, by omega, ?_, fun y hy hy' => hno y hy (by omega), ?_⟩
    · intro x hx hx'
      rw [← h.pairAt_eq (by omega)]
      exact h.pairAt_spaced v x hv (by omega) (by omega)
    · intro v' huv' hv'
      by_contra hlt
      simp [hno v' huv' (by omega)] at hv'
  · refine ⟨u + 7, le_rfl, ?_, fun y hy _ => hlast y hy, ?_⟩
    · intro x hx hx'
      rw [← h.pairAt_eq (by omega)]
      exact hlast x (by omega)
    · intro v huv hv
      simp [hlast v huv] at hv

/-- Every tripping pair sets the latch before the verdict on the next pair is there. -/
theorem exists_intlkLtc (s : State A) (h : Operation inp n cfg) (hen : cfg.intlkEn = true)
    (hclr : OnceBetween (fun t => (inp t).posValid) fun t => (inp t).clr)
    (hdclr : ∀ d, OnceBetween (fun t => (inp t).posValid) fun t => (inp t).clrOf d)
    {u : ℕ} (htrip : TripsAt inp u) :
    ∃ t d, u + 9 ≤ t ∧ SetBy s inp (t - 1) d u ∧ (run step s inp t).intlkLtc = true ∧
      ∀ v, u < v → pairAt inp v = true → t < v + 6 := by
  obtain ⟨hu, hp, ho⟩ := htrip
  obtain ⟨d, hden, hout⟩ := Input.outOfLimits_iff.mp ho
  obtain ⟨m, hm, hfree, hno, hnext⟩ := h.exists_window hu
  have hn := h.le_of_pairAt hu
  have hval : (inp u).posValid = true := by rwa [← h.pairAt_eq hn]
  -- of the three cycles, one is free of the clears of this detector and of the general one
  obtain ⟨c, hmc, hcm, hcl, hcl'⟩ := exists_free_cycle (hdclr d) hclr hval (by omega) hfree
  have hlast : ∀ k, 4 ≤ k → k ≤ 6 → latest (pairAt inp) (c - k) = some u := fun k hk hk' =>
    latest_pairAt hu (by omega) hk hk' fun y hy hy' => hno y hy (by omega)
  have hgate : GateOpen inp cfg (c - 4) :=
    hp.imp (fun hoff => by rwa [h.cfg_eq] at hoff) fun hs => ⟨u, hlast 4 le_rfl (by omega), hs⟩
  have hage := hlast d.latency (by have := d.five_le_latency; omega) d.latency_le_six
  have hal := (h.alarm_iff s d (show n < c by omega)).mpr
    ⟨by rwa [h.cfg_eq] at hden, hgate, u, hage, hout⟩
  refine ⟨c + 2, d, by omega, ⟨h.intlkOf_of_alarm s (by omega) hal hcl, hage, hcl'⟩,
    h.intlkLtc_of_alarm s hen (by omega) hal hcl hcl', ?_⟩
  intro v huv hv
  have := hnext v huv hv
  omega

end Operation

/-- The general latch stays up until it is cleared or reset. -/
theorem intlkLtc_stays (s : State A) (inp : ℕ → Input w) {t t' : ℕ} (htt : t ≤ t')
    (hltc : (run step s inp t).intlkLtc = true)
    (hno : ∀ x, t ≤ x → x < t' → (inp x).clr = false ∧ (inp x).rstN = true) :
    (run step s inp t').intlkLtc = true := by
  induction t', htt using Nat.le_induction with
  | base => exact hltc
  | succ x hx ih =>
    obtain ⟨hc, hr⟩ := hno x hx (by omega)
    have := ih fun y hy hy' => hno y hy (by omega)
    simp [run_succ, step, ltcNext, hc, hr, this]

/-- **No trip is missed**: with the interlock enabled and each clear pulsed at most once between
two pairs, every pair that trips by itself sets the latch by its own verdict before the verdict on
the next pair is registered, and the latch then stays up until it is cleared or reset. -/
theorem no_missed_trip (s : State A) (h : Operation inp n cfg) (hen : cfg.intlkEn = true)
    (hclr : OnceBetween (fun t => (inp t).posValid) fun t => (inp t).clr)
    (htc : OnceBetween (fun t => (inp t).posValid) fun t => (inp t).transClr)
    (hac : OnceBetween (fun t => (inp t).posValid) fun t => (inp t).angClr) :
    (∀ u, TripsAt inp u → ∃ t d, u + 9 ≤ t ∧ SetBy s inp (t - 1) d u ∧
      (run step s inp t).intlkLtc = true ∧ ∀ v, u < v → pairAt inp v = true → t < v + 6) ∧
    ∀ t t', t ≤ t' → (run step s inp t).intlkLtc = true →
      (∀ x, t ≤ x → x < t' → (inp x).clr = false ∧ (inp x).rstN = true) →
      (run step s inp t').intlkLtc = true :=
  ⟨fun _ htrip => h.exists_intlkLtc s hen hclr (fun d => by cases d <;> assumption) htrip,
    fun _ _ htt hltc hno => intlkLtc_stays s inp htt hltc hno⟩

/-- The pair of the limits test raises the latch, which stays up. -/
theorem onePair_trips : (∃ t d, 19 ≤ t ∧
      SetBy (State.powerUp (A := Adder.twoStage 32) idleAdder) (scenario minSumConfig onePair)
        (t - 1) d 10 ∧
      (run step (State.powerUp (A := Adder.twoStage 32) idleAdder) (scenario minSumConfig onePair)
        t).intlkLtc = true) ∧
    (run step (State.powerUp (A := Adder.twoStage 32) idleAdder) (scenario minSumConfig onePair)
      1000).intlkLtc = true := by
  have once : OnceBetween (fun t => (scenario minSumConfig onePair t).posValid) fun _ => false :=
    fun _ _ _ _ _ _ h => absurd h Bool.false_ne_true
  obtain ⟨htrip, hstay⟩ := no_missed_trip (State.powerUp (A := Adder.twoStage 32) idleAdder)
    (scenario_operation minSumConfig onePair_spaced) rfl once once once
  refine ⟨?_, ?_⟩
  · obtain ⟨t, d, ht, hset, hltc, -⟩ := htrip 10 ⟨by decide, by decide, by decide⟩
    exact ⟨t, d, ht, hset, hltc⟩
  · apply hstay 19 1000 (by decide) (by decide +kernel)
    intro x hx _
    exact ⟨rfl, decide_eq_true (show 8 ≤ x by omega)⟩

end Missed

end OrbitIntlk
