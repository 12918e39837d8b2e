import BpmGateware.OrbitIntlk.Trip

/-!
# Which word a verdict is about

A detector can take a sample pair in every cycle. The carry of a comparator is that of the word
presented two edges before, but the sign bit that corrects it is read off the value register as it
is by then, and a pair one or two cycles later has overwritten it. So a verdict may combine the
magnitude of one pair with the sign of another. Here a detector is followed from any state, under
any pattern of valids and of resets, and what each comparator result is worth is settled exactly.

The word itself is formed in the width of the positions. It is the average, or the difference, of
the two positions only as long as their sum, or their difference, fits that width.

## Main definitions

* `compared d inp`: the pairs whose word reaches the comparators of a detector
* `signPair c u`: the pair whose sign bit the comparator result of pair `u` meets
* `Side.SignHarmless`: that sign bit leaves the verdict right
* `Detector.exact`, `Detector.overflow`: the average and the difference as integers, and the
  positions for which the width does not hold them

## Main results

* `det_eq_comb`: what a comparator result loads
* `comparators_signed`: the comparators decide the signed order, at every width
* `own_verdict_iff`: the runs in which every verdict is that on the pair's own word
* `exact_verdict_iff`: the positions on which the verdict is that on the exact value
-/

namespace OrbitIntlk

open Clocked

variable {w : ℕ} {A : GcBigAdder2 w}

/-! ## The pairs that are compared -/

/-- The limit behind a flag. -/
def Config.limit (cfg : Config w) (d : Detector) (a : Axis) (k : Side) : BitVec w :=
  match d, k with
  | .trans, .bigger => cfg.transMax a
  | .trans, .smaller => cfg.transMin a
  | .ang, .bigger => cfg.angMax a
  | .ang, .smaller => cfg.angMin a

/-- The signed comparison of a side. -/
def Side.verdict (k : Side) (m v : BitVec w) : Bool :=
  match k with
  | .bigger => m.sle v
  | .smaller => v.sle m

/-- A comparator result and a sign bit, as a side combines them. -/
def Side.comb (k : Side) (m v : BitVec w) (sign : Bool) : Bool :=
  match k with
  | .bigger => signedGe (BitVec.carry w v (~~~m) true) sign m.msb
  | .smaller => signedLe (BitVec.carry w (~~~v) m true) sign m.msb

/-- The pairs whose word reaches the comparators of a detector: those that leave the first adder
out of reset and, for the translation, pass the division out of reset. -/
def compared (d : Detector) (inp : ℕ → Input w) (u : ℕ) : Bool :=
  match d with
  | .trans => (inp (u + 3)).rstN && pairAt inp u
  | .ang => pairAt inp u

/-- The stages before the comparators. -/
def Detector.depth : Detector → ℕ
  | .trans => 3
  | .ang => 2

theorem Detector.latency_eq (d : Detector) : d.latency = d.depth + 3 := by cases d <;> rfl

/-- The comparators of a channel as they stand behind the pairs: the settings are those of the run,
and the value register shows the words of the compared pairs. -/
structure Behind (i : ℕ → TholdIn w) (inp : ℕ → Input w) (d : Detector) (a : Axis) : Prop where
  rstN : ∀ t, (i t).rstN = (inp t).rstN
  max : ∀ t, (i t).max = (inp t).cfg.limit d a .bigger
  min : ∀ t, (i t).min = (inp t).cfg.limit d a .smaller
  valid : ∀ u, (i (u + d.depth + 1)).valid = compared d inp u
  value : ∀ u, (i (u + d.depth + 1)).value =
    if compared d inp u then (inp u).word d a else (i (u + d.depth)).value

/-- **Each detector puts its comparators behind the pairs**. -/
theorem exists_behind (s : State A) (inp : ℕ → Input w) (d : Detector) (a : Axis) :
    ∃ i, Behind i inp d a ∧
      ∀ t, (run step s inp t).thold a d = run tholdStep (s.thold a d) i t := by
  cases d with
  | trans =>
    let chan : ℕ → ChanIn w := fun t => (run step s inp t).transIn (inp t) a
    refine ⟨fun t => (chan t).thold (run transStep (s.trans a) chan t).trans
      (run transStep (s.trans a) chan t).transValid, ?_, ?_⟩
    · refine ⟨fun _ => rfl, fun _ => rfl, fun _ => rfl, ?_, ?_⟩
      · exact fun u => TransChan.transValid_run (s.trans a) chan u
      · exact fun u => TransChan.trans_run (s.trans a) chan u
    · intro t
      rw [State.thold, Operation.run_trans, TransChan.run_thold]
      rfl
  | ang =>
    let chan : ℕ → ChanIn w := fun t => (run step s inp t).angIn (inp t) a
    let sums : ℕ → SumStage A := run sumStep (s.ang a).sum fun t => (chan t).angSum
    refine ⟨fun t => (chan t).thold (sums t).sumReg (sums t).sumValidReg, ?_, ?_⟩
    · refine ⟨fun _ => rfl, fun _ => rfl, fun _ => rfl, ?_, ?_⟩
      · exact fun u => SumStage.sumValidReg_run (s.ang a).sum (fun t => (chan t).angSum) u
      · intro u
        have h := SumStage.sumReg_run (s.ang a).sum (fun t => (chan t).angSum) u
        rw [ChanIn.angSum_sum] at h
        exact h
    · intro t
      rw [State.thold, Operation.run_ang, AngChan.run_thold]
      simp only [AngChan.run_sum]
      rfl

/-! ## The sign bit a comparator result meets -/

/-- The pair whose sign bit the comparator result of pair `u` meets: the last one up to two cycles
after it. -/
def signPair (c : ℕ → Bool) (u : ℕ) : ℕ :=
  if c (u + 2) then u + 2 else if c (u + 1) then u + 1 else u

theorem Behind.value_sign {i : ℕ → TholdIn w} {inp : ℕ → Input w} {d : Detector} {a : Axis}
    (h : Behind i inp d a) {u : ℕ} (hu : compared d inp u = true) :
    (i (u + d.depth + 3)).value = (inp (signPair (compared d inp) u)).word d a := by
  have h₀ : (i (u + d.depth + 1)).value = (inp u).word d a := by rw [h.value, if_pos hu]
  have h₁ := h.value (u + 1)
  have h₂ := h.value (u + 2)
  -- the two loads after that of `u`, counted from its own cycle
  rw [show u + 1 + d.depth + 1 = u + d.depth + 2 by omega,
    show u + 1 + d.depth = u + d.depth + 1 by omega, h₀] at h₁
  rw [show u + 2 + d.depth + 1 = u + d.depth + 3 by omega,
    show u + 2 + d.depth = u + d.depth + 2 by omega, h₁] at h₂
  rw [h₂, signPair]
  by_cases hc₂ : compared d inp (u + 2) = true
  · rw [if_pos hc₂, if_pos hc₂]
  · rw [if_neg hc₂, if_neg hc₂]
    by_cases hc₁ : compared d inp (u + 1) = true
    · rw [if_pos hc₁, if_pos hc₁]
    · rw [if_neg hc₁, if_neg hc₁]

/-- A pair whose comparator result loads the result registers: it is compared, and the reset is not
held when the result comes out. -/
def Loads (d : Detector) (inp : ℕ → Input w) (u : ℕ) : Prop :=
  compared d inp u = true ∧ (inp (u + d.latency)).rstN = true

/-- **What a comparator result loads**: the carry of its own word, corrected by the sign of the last
word up to two cycles after it. -/
theorem det_eq_comb (s : State A) {inp : ℕ → Input w} {d : Detector} {a : Axis} {k : Side}
    {m : BitVec w} (hm : ∀ t, (inp t).cfg.limit d a k = m) {u : ℕ} (hu : Loads d inp u) :
    (run step s inp (u + d.latency + 1)).det d a k =
      k.comb m ((inp u).word d a) ((inp (signPair (compared d inp) u)).word d a).msb := by
  obtain ⟨i, hi, hrun⟩ := exists_behind s inp d a
  have hrst : ¬ (i (u + d.depth + 3)).rstN = false := by
    rw [hi.rstN, Nat.add_assoc, ← Detector.latency_eq, hu.2]
    exact Bool.noConfusion
  have hvalid : (i (u + d.depth + 1)).valid = true := by rw [hi.valid, hu.1]
  have hvalue : (i (u + d.depth + 1)).value = (inp u).word d a := by rw [hi.value, if_pos hu.1]
  rw [Detector.latency_eq, show u + (d.depth + 3) + 1 = u + d.depth + 1 + 3 by omega]
  cases k with
  | bigger =>
    rw [State.det, hrun, Thold.biggerReg_run, if_neg hrst, if_pos hvalid, hvalue,
      hi.value_sign hu.1, hi.max, hi.max, hm, hm]
    rfl
  | smaller =>
    rw [State.det, hrun, Thold.smallerReg_run, if_neg hrst, if_pos hvalid, hvalue,
      hi.value_sign hu.1, hi.min, hi.min, hm, hm]
    rfl

/-- The verdict on the words across zero, those whose sign is not that of the limit. -/
def Side.acrossZero (k : Side) (m : BitVec w) : Bool :=
  match k with
  | .bigger => m.msb
  | .smaller => !m.msb

/-- A sign bit that leaves the verdict on a word right: the word's own, or any if the word has the
sign of the limit and its verdict is that of the words across zero. -/
def Side.SignHarmless (k : Side) (m v : BitVec w) (sign : Bool) : Prop :=
  sign = v.msb ∨ (v.msb = m.msb ∧ k.verdict m v = k.acrossZero m)

theorem Side.comb_eq_verdict_iff (k : Side) (m v : BitVec w) (sign : Bool) :
    k.comb m v sign = k.verdict m v ↔ k.SignHarmless m v sign := by
  cases k with
  | bigger => exact signedGe_eq_sle_iff v m sign
  | smaller => exact signedLe_eq_sle_iff v m sign

/-- **When the detectors are correctly pipelined**: under constant limits and any pattern of valids,
every comparator result loads the signed comparison of its own pair's word exactly if at each of
them the sign bit of the last pair up to two cycles later is harmless. -/
theorem own_verdict_iff (s : State A) (inp : ℕ → Input w) (d : Detector) (a : Axis) (k : Side)
    (m : BitVec w) (hm : ∀ t, (inp t).cfg.limit d a k = m) :
    (∀ u, Loads d inp u →
      (run step s inp (u + d.latency + 1)).det d a k = k.verdict m ((inp u).word d a)) ↔
    ∀ u, Loads d inp u →
      k.SignHarmless m ((inp u).word d a) ((inp (signPair (compared d inp) u)).word d a).msb := by
  apply forall₂_congr
  intro u hu
  rw [det_eq_comb s hm hu, Side.comb_eq_verdict_iff]

/-- The settings of the minimum-sum test with a window around zero. -/
def windowConfig : Config 32 :=
  { minSumConfig with transMin := fun _ => 0xFFF00000 }

/-- Two pairs in consecutive cycles, each with one position everywhere. -/
def backToBack (p q : BitVec 32) (t : ℕ) : Option (Sample 32 × Sample 32) :=
  if t = 10 then some (⟨p, p, 0, 0x10000⟩, ⟨p, p, 0, 0x10000⟩)
  else if t = 11 then some (⟨q, q, 0, 0x10000⟩, ⟨q, q, 0, 0x10000⟩)
  else none

theorem backToBack_word (cfg : Config 32) (p q : BitVec 32) (u : ℕ) :
    (scenario cfg (backToBack p q) u).word .trans .x =
      if u = 10 then transWord p p else if u = 11 then transWord q q else 0 := by
  by_cases h₀ : u = 10
  · subst h₀
    rfl
  · by_cases h₁ : u = 11
    · subst h₁
      rfl
    · simp [Input.word, Input.trans, scenario, backToBack, h₀, h₁, transWord, Sample.pos]

theorem backToBack_positive (u : ℕ) :
    ((scenario windowConfig (backToBack 0x200000 1) u).word .trans .x).msb = false := by
  rw [backToBack_word]
  by_cases h₀ : u = 10
  · simp only [h₀, if_true]
    decide
  · by_cases h₁ : u = 11
    · simp only [h₁, if_true]
      decide
    · simp only [h₀, h₁, if_false]
      decide

/-- Two positive positions in a row are judged one by one: the first is beyond the upper limit, the
second is not. -/
theorem backToBack_own :
    (run step (State.powerUp (A := Adder.twoStage 32) idleAdder)
      (scenario windowConfig (backToBack 0x200000 1)) 17).det .trans .x .bigger = true ∧
    (run step (State.powerUp (A := Adder.twoStage 32) idleAdder)
      (scenario windowConfig (backToBack 0x200000 1)) 18).det .trans .x .bigger = false := by
  have hown := (own_verdict_iff (State.powerUp (A := Adder.twoStage 32) idleAdder)
    (scenario windowConfig (backToBack 0x200000 1)) .trans .x .bigger 0x100000
    fun _ => rfl).mpr fun u _ =>
      Or.inl ((backToBack_positive _).trans (backToBack_positive u).symm)
  exact ⟨(hown 10 ⟨rfl, rfl⟩).trans (by decide), (hown 11 ⟨rfl, rfl⟩).trans (by decide)⟩

/-- **The sign of the next pair**: a position just below zero, inside the window, followed at once
by one just above it, is registered as beyond the upper limit. -/
theorem sign_of_next_pair :
    Loads .trans (scenario windowConfig (backToBack 0xFFFFFFFE 2)) 10 ∧
      (run step (State.powerUp (A := Adder.twoStage 32) idleAdder)
        (scenario windowConfig (backToBack 0xFFFFFFFE 2)) 17).det .trans .x .bigger = true ∧
      Side.bigger.verdict (windowConfig.limit .trans .x .bigger)
        ((scenario windowConfig (backToBack 0xFFFFFFFE 2) 10).word .trans .x) = false :=
  ⟨⟨rfl, rfl⟩, by decide +kernel, by decide⟩

/-! ## The signed order -/

/-- The limit of a side is reached. -/
def Side.Reached (k : Side) (m v : ℤ) : Prop :=
  match k with
  | .bigger => m ≤ v
  | .smaller => v ≤ m

theorem Side.verdict_eq_true (k : Side) (m v : BitVec w) :
    k.verdict m v = true ↔ k.Reached m.toInt v.toInt := by
  cases k <;> exact BitVec.sle_iff_toInt_le

/-- With the sign bit of its own word a comparator is right. -/
theorem Side.comb_own (k : Side) (m v : BitVec w) : k.comb m v v.msb = k.verdict m v := by
  cases k with
  | bigger => exact signedGe_eq v m
  | smaller => exact signedLe_eq v m

/-- A comparator whose operands stay for the two edges of its adder. -/
theorem biggerComb_settled (s : Thold A) (i : TholdIn w) :
    (run tholdStep s (fun _ => i) 2).biggerComb i =
      Side.bigger.comb i.max i.value i.value.msb := by
  unfold Thold.biggerComb
  rw [Thold.run_biggerAdder, A.carry_run _ _ 0]
  rfl

theorem smallerComb_settled (s : Thold A) (i : TholdIn w) :
    (run tholdStep s (fun _ => i) 2).smallerComb i =
      Side.smaller.comb i.min i.value i.value.msb := by
  unfold Thold.smallerComb
  rw [Thold.run_smallerAdder, A.carry_run _ _ 0]
  rfl

/-- **Signed comparison by carry and sign bit**, at every width and for all words: the bigger
comparator says that the value is at least the upper limit, the smaller one that it is at most the
lower limit. Both are inclusive at every word, the most negative one among them; and this is what
the comparators of a channel show once their operands have passed the adders. -/
theorem comparators_signed (i : TholdIn w) :
    (Side.bigger.comb i.max i.value i.value.msb = true ↔ i.max.toInt ≤ i.value.toInt) ∧
    (Side.smaller.comb i.min i.value i.value.msb = true ↔ i.value.toInt ≤ i.min.toInt) ∧
    (∀ (k : Side) (v : BitVec w), k.comb v v v.msb = true) ∧
    ∀ (A : GcBigAdder2 w) (s : Thold A),
      (run tholdStep s (fun _ => i) 2).biggerComb i =
        Side.bigger.comb i.max i.value i.value.msb ∧
      (run tholdStep s (fun _ => i) 2).smallerComb i =
        Side.smaller.comb i.min i.value i.value.msb := by
  refine ⟨?_, ?_, ?_, ?_⟩
  · rw [Side.comb_own]
    exact Side.verdict_eq_true .bigger i.max i.value
  · rw [Side.comb_own]
    exact Side.verdict_eq_true .smaller i.min i.value
  · intro k v
    rw [Side.comb_own, Side.verdict_eq_true]
    cases k <;> exact Int.le_refl v.toInt
  · exact fun A s => ⟨biggerComb_settled s i, smallerComb_settled s i⟩

/-! ## The exact average and difference -/

/-- The position a detector decides on, in unbounded integers: the average, rounded down, or the
difference. -/
def Detector.exact (d : Detector) (us ds : BitVec w) : ℤ :=
  match d with
  | .trans => (us.toInt + ds.toInt) / 2
  | .ang => ds.toInt - us.toInt

/-- The first adder of a detector leaves the signed range of its width. -/
def Detector.overflow (d : Detector) (us ds : BitVec w) : Bool :=
  match d with
  | .trans => us.saddOverflow ds
  | .ang => ds.ssubOverflow us

theorem transWord_toInt_iff (us ds : BitVec w) :
    (transWord us ds).toInt = (us.toInt + ds.toInt) / 2 ↔ us.saddOverflow ds = false := by
  rw [transWord, BitVec.toInt_sshiftRight, Int.shiftRight_eq_div_pow]
  constructor
  · intro h
    have hlo := (us + ds).le_toInt
    have hhi := (us + ds).toInt_lt
    -- the sum and its word have the same half and the same parity, so they are equal
    have heq : (us + ds).toInt = us.toInt + ds.toInt := by
      cases w with
      | zero => simp only [BitVec.toInt_zero_length, Int.add_zero]
      | succ n =>
        have hdvd : (2 : ℤ) ∣ (us + ds).toInt - (us.toInt + ds.toInt) := by
          rw [BitVec.toInt_add]
          have htwo : 2 ∣ 2 ^ (n + 1) := ⟨2 ^ n, Nat.pow_succ'⟩
          exact Int.dvd_trans (Int.natCast_dvd_natCast.mpr htwo) Int.dvd_bmod_sub_self
        omega
    rw [heq] at hlo hhi
    simp only [BitVec.saddOverflow, Bool.or_eq_false_iff, decide_eq_false_iff_not]
    omega
  · intro h
    rw [BitVec.toInt_add_of_not_saddOverflow (by simp [h])]
    rfl

theorem angWord_toInt_iff (us ds : BitVec w) :
    (angWord us ds).toInt = ds.toInt - us.toInt ↔ ds.ssubOverflow us = false := by
  rw [angWord]
  constructor
  · intro h
    have hlo := (ds - us).le_toInt
    have hhi := (ds - us).toInt_lt
    rw [h] at hlo hhi
    simp only [BitVec.ssubOverflow, Bool.or_eq_false_iff, decide_eq_false_iff_not]
    omega
  · intro h
    rw [BitVec.toInt_sub_of_not_ssubOverflow (by simp [h])]

/-- The word of a detector is the exact value unless its first adder overflows. -/
theorem word_exact_iff (i : Input w) (d : Detector) (a : Axis) :
    (i.word d a).toInt = d.exact (i.us.pos a) (i.ds.pos a) ↔
      d.overflow (i.us.pos a) (i.ds.pos a) = false := by
  cases d with
  | trans => exact transWord_toInt_iff (i.us.pos a) (i.ds.pos a)
  | ang => exact angWord_toInt_iff (i.us.pos a) (i.ds.pos a)

/-! ## The verdict on a pair by itself -/

/-- A pair with none in the two cycles after it, and no reset from its sum to its verdict. -/
structure LonePair (inp : ℕ → Input w) (u : ℕ) : Prop where
  valid : (inp u).posValid = true
  alone : ∀ x, u < x → x ≤ u + 2 → (inp x).posValid = false
  rstN : ∀ x, u + 2 ≤ x → x ≤ u + 6 → (inp x).rstN = true

theorem compared_of_not_valid {inp : ℕ → Input w} {x : ℕ} (h : (inp x).posValid = false)
    (d : Detector) : compared d inp x = false := by
  cases d <;> simp [compared, pairAt, taken, h]

theorem LonePair.loads {inp : ℕ → Input w} {u : ℕ} (h : LonePair inp u) (d : Detector) :
    Loads d inp u := by
  have h₂ := h.rstN (u + 2) le_rfl (by omega)
  have h₃ := h.rstN (u + 3) (by omega) (by omega)
  have hl := d.latency_le_six
  have hl' := d.five_le_latency
  refine ⟨?_, h.rstN _ (by omega) (by omega)⟩
  cases d <;> simp [compared, pairAt, taken, h.valid, h₂, h₃]

/-- A comparator result of a lone pair meets the pair's own sign. -/
theorem LonePair.signPair_eq {inp : ℕ → Input w} {u : ℕ} (h : LonePair inp u) (d : Detector) :
    signPair (compared d inp) u = u := by
  have h₁ := compared_of_not_valid (h.alone (u + 1) (by omega) (by omega)) d
  have h₂ := compared_of_not_valid (h.alone (u + 2) (by omega) (by omega)) d
  simp [signPair, h₁, h₂]

/-- **The verdict on a lone pair** is the signed comparison of its own word. -/
theorem LonePair.det_iff (s : State A) {inp : ℕ → Input w} {u : ℕ} (h : LonePair inp u)
    {d : Detector} {a : Axis} {k : Side} {m : BitVec w}
    (hm : ∀ t, (inp t).cfg.limit d a k = m) :
    (run step s inp (u + d.latency + 1)).det d a k = true ↔
      k.Reached m.toInt ((inp u).word d a).toInt := by
  have hown : k.SignHarmless m ((inp u).word d a) ((inp u).word d a).msb := Or.inl rfl
  rw [det_eq_comb s hm (h.loads d), h.signPair_eq d, (k.comb_eq_verdict_iff _ _ _).mpr hown,
    Side.verdict_eq_true]

/-- One pair at the first cycle, with one limit everywhere and no reset. -/
def firstPair (m us ds : BitVec w) (t : ℕ) : Input w where
  rstN := true
  cfg := ⟨true, false, 0, true, fun _ => m, fun _ => m, true, fun _ => m, fun _ => m⟩
  clr := false
  transClr := false
  angClr := false
  ds := ⟨ds, ds, 0, 0⟩
  us := ⟨us, us, 0, 0⟩
  dsValid := t == 0
  usValid := t == 0

theorem firstPair_lone (m us ds : BitVec w) : LonePair (firstPair m us ds) 0 where
  valid := rfl
  alone x hx _ := by simp [firstPair, Input.posValid, show x ≠ 0 by omega]
  rstN _ _ _ := rfl

theorem firstPair_limit (m us ds : BitVec w) (t : ℕ) (d : Detector) (a : Axis) (k : Side) :
    (firstPair m us ds t).cfg.limit d a k = m := by
  cases d <;> cases k <;> rfl

theorem firstPair_pos (m us ds : BitVec w) (t : ℕ) (a : Axis) :
    (firstPair m us ds t).us.pos a = us ∧ (firstPair m us ds t).ds.pos a = ds := by
  cases a <;> exact ⟨rfl, rfl⟩

/-- **The positions on which the interlock decides exactly**: the verdicts on a lone pair of
positions are those on its average or difference in unbounded integers, for all limits, exactly if
the first adder of the detector does not overflow on them. -/
theorem exact_verdict_iff (s : State A) (d : Detector) (a : Axis) (us ds : BitVec w) :
    (∀ inp u, LonePair inp u → (inp u).us.pos a = us → (inp u).ds.pos a = ds →
      ∀ k m, (∀ t, (inp t).cfg.limit d a k = m) →
        ((run step s inp (u + d.latency + 1)).det d a k = true ↔
          k.Reached m.toInt (d.exact us ds))) ↔
    d.overflow us ds = false := by
  constructor
  · intro h
    -- the limit that tells most is the word the detector forms
    let v : BitVec w := (firstPair 0 us ds 0).word d a
    have hv : (firstPair v us ds 0).word d a = v := by cases d <;> rfl
    obtain ⟨hus, hds⟩ := firstPair_pos v us ds 0 a
    have hlone := firstPair_lone v us ds
    have hlim := fun k t => firstPair_limit v us ds t d a k
    have key : ∀ k : Side, k.Reached v.toInt v.toInt ↔ k.Reached v.toInt (d.exact us ds) := by
      intro k
      have hdet := hlone.det_iff s (hlim k)
      rw [h _ 0 hlone hus hds k v (hlim k), hv] at hdet
      exact hdet.symm
    have hword := word_exact_iff (firstPair v us ds 0) d a
    rw [hus, hds, hv] at hword
    refine hword.mp (le_antisymm ?_ ?_)
    · exact (key .bigger).mp le_rfl
    · exact (key .smaller).mp le_rfl
  · rintro hno inp u hu rfl rfl k m hm
    rw [hu.det_iff s hm, (word_exact_iff (inp u) d a).mpr hno]

/-- A pair of saturated readings. -/
def saturated (t : ℕ) : Option (Sample 32 × Sample 32) :=
  if t = 10 then
    some (⟨0x7FFFFFFF, 0x7FFFFFFF, 0, 0x10000⟩, ⟨0x7FFFFFFF, 0x7FFFFFFF, 0, 0x10000⟩)
  else none

/-- **Saturated readings pass as centred**: both positions are at the upper end of the range, their
average is far beyond the upper limit, and the translation is registered as inside the window. -/
theorem saturated_inside :
    LonePair (scenario windowConfig saturated) 10 ∧
      (∀ k, (run step (State.powerUp (A := Adder.twoStage 32) idleAdder)
        (scenario windowConfig saturated) 17).det .trans .x k = false) ∧
      Side.bigger.Reached (windowConfig.limit .trans .x .bigger).toInt
        (Detector.trans.exact ((scenario windowConfig saturated 10).us.pos .x)
          ((scenario windowConfig saturated 10).ds.pos .x)) := by
  refine ⟨⟨rfl, ?_, ?_⟩, ?_, ?_⟩
  · intro x hx _
    simp [scenario, Input.posValid, saturated, show x ≠ 10 by omega]
  · intro x hx _
    simp [scenario, show 8 ≤ x by omega]
  · intro k
    cases k <;> decide +kernel
  · show (_ : ℤ) ≤ _
    decide

end OrbitIntlk
