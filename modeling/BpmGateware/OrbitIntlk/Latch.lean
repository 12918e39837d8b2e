import BpmGateware.OrbitIntlk.Trip

/-!
# The latched status

Eight per-axis flags are latched in the two detectors and one in `p_out`, each with its own set,
enable and clear. Whatever the samples, limits, enables and clears do from cycle to cycle, each
latch is an exact history of the detections since its last clear, each level flag comes with its
latched flag, and the general latch, one edge later than the others, names one of them as its
cause for as long as none of them is cleared.

## Main definitions

* `State.FlagsDown`: the flag registers at power-up

## Main results

* `latched_iff`, `latched_of_level`, `exists_latched`: the history, the levels and the cause
* `latched_status`: the three together, for every run after one reset
-/

namespace OrbitIntlk

open Clocked

variable {w : ℕ} {A : GcBigAdder2 w}

/-- The flag registers at power-up: all `'0'`. -/
structure State.FlagsDown (s : State A) : Prop where
  level : ∀ d a k, s.level d a k = false
  latched : ∀ d a k, s.latched d a k = false
  intlk : s.intlk = false
  intlkLtc : s.intlkLtc = false

/-! ## Steps that are not cleared or reset -/

/-- Out of reset, an edge that raises a level flag raises the latched flag as well. -/
theorem latched_step_of_level (s : State A) {i : Input w} (hr : i.rstN = true) {d : Detector}
    {a : Axis} {k : Side} (h : (step s i).level d a k = true) :
    (step s i).latched d a k = true := by
  rw [level_step, hr, levelNext_true, Bool.and_eq_true, Bool.not_eq_true', Bool.and_eq_true] at h
  obtain ⟨hc, hen, hd⟩ := h
  simp [latched_step, State.sets, ltcNext, hr, hc, hen, hd]

/-- A latched flag stays up where neither reset nor its clear is. -/
theorem latched_step_stays (s : State A) {i : Input w} (hr : i.rstN = true) {d : Detector}
    (hc : i.clrOf d = false) {a : Axis} {k : Side} (h : s.latched d a k = true) :
    (step s i).latched d a k = true := by
  simp [latched_step, ltcNext, hr, hc, h]

theorem intlkLtc_step_of_intlk (s : State A) {i : Input w} (h : (step s i).intlk = true) :
    (step s i).intlkLtc = true := by
  simp only [step] at h ⊢
  cases hr : i.rstN <;> cases hc : i.clr <;> simp_all [ltcNext]

/-- An edge that raises the general latch finds a level flag up, and is out of reset. -/
theorem exists_level_of_intlkLtc_step (s : State A) {i : Input w} (h₀ : s.intlkLtc = false)
    (h : (step s i).intlkLtc = true) : ∃ d a k, s.level d a k = true := by
  have hup : (s.intlkTrans || s.intlkAng) = true := by
    by_contra hno
    simp [step, ltcNext, h₀, State.intlkAll, hno] at h
  obtain ⟨d, hd⟩ := exists_intlkOf.mp hup
  exact ⟨d, intlkOf_eq_true.mp hd⟩

theorem rstN_of_intlkLtc_step (s : State A) {i : Input w} (h : (step s i).intlkLtc = true) :
    i.rstN = true := by
  by_contra hr
  simp [step, ltcNext, hr] at h

/-! ## Runs after one reset -/

section Runs

variable {s : State A} {inp : ℕ → Input w} {n : ℕ} (hs : s.FlagsDown)
  (low : ∀ t < n, (inp t).rstN = false) (high : ∀ t, n ≤ t → (inp t).rstN = true)

include hs low

/-- Power-up and reset leave every flag down. -/
theorem flagsDown_reset {t : ℕ} (ht : t ≤ n) : (run step s inp t).FlagsDown := by
  induction t with
  | zero => exact hs
  | succ t ih =>
    have ih := ih (by omega)
    have hr := low t (by omega)
    refine ⟨?_, ?_, ?_, ?_⟩
    · intro d a k
      rw [run_succ, level_step_reset _ hr, ih.level]
    · intro d a k
      simp [run_succ, latched_step, ltcNext, hr]
    · simp [run_succ, step, hr]
    · simp [run_succ, step, ltcNext, hr]

include high

/-- **A latched flag is an exact history** of the detections under its enable. -/
theorem latched_iff (d : Detector) (a : Axis) (k : Side) (t : ℕ) :
    (run step s inp t).latched d a k = true ↔ ∃ e, n ≤ e ∧
      LatchedAt (fun e => (run step s inp e).sets d a k) (fun e => (inp e).clrOf d) t e := by
  rcases Nat.lt_or_ge t n with hlt | hge
  · rw [(flagsDown_reset hs low hlt.le).latched]
    exact iff_of_false Bool.false_ne_true fun ⟨e, he, het, _⟩ => by omega
  · refine latch_eq_true_iff (l := fun t => (run step s inp t).latched d a k) ?_
      ((flagsDown_reset hs low le_rfl).latched d a k) hge
    intro t ht
    rw [run_succ, latched_step, high t ht, ltcNext_true]

/-- The general latch is an exact history of `intlk_all`. -/
theorem intlkLtc_history (t : ℕ) :
    (run step s inp t).intlkLtc = true ↔ ∃ e, n ≤ e ∧
      LatchedAt (fun e => (run step s inp e).intlkAll (inp e)) (fun e => (inp e).clr) t e := by
  rcases Nat.lt_or_ge t n with hlt | hge
  · rw [(flagsDown_reset hs low hlt.le).intlkLtc]
    exact iff_of_false Bool.false_ne_true fun ⟨e, he, het, _⟩ => by omega
  · refine latch_eq_true_iff (l := fun t => (run step s inp t).intlkLtc) ?_
      (flagsDown_reset hs low le_rfl).intlkLtc hge
    intro t ht
    simp only [run_succ, step, high t ht, ltcNext_true]

/-- **A level flag comes with its latched flag**, in the same cycle. -/
theorem latched_of_level {t : ℕ} {d : Detector} {a : Axis} {k : Side}
    (h : (run step s inp t).level d a k = true) : (run step s inp t).latched d a k = true := by
  rcases Nat.lt_or_ge n t with hlt | hge
  · obtain ⟨m, rfl⟩ := Nat.exists_eq_add_of_le' (show 1 ≤ t by omega)
    exact latched_step_of_level _ (high m (by omega)) h
  · rw [(flagsDown_reset hs low hge).level] at h
    exact absurd h Bool.false_ne_true

omit low high in
theorem intlkLtc_of_intlk {t : ℕ} (h : (run step s inp t).intlk = true) :
    (run step s inp t).intlkLtc = true := by
  cases t with
  | zero => exact absurd h (by simp [hs.intlk])
  | succ t => exact intlkLtc_step_of_intlk _ h

/-- **The general latch names its cause**: as long as no detector is cleared after the edge that
raised it, one of the eight flags is latched. -/
theorem exists_latched {e t : ℕ} (het : e < t) (h₀ : (run step s inp e).intlkLtc = false)
    (hup : ∀ x, e < x → x ≤ t → (run step s inp x).intlkLtc = true)
    (hclr : ∀ x, e ≤ x → x < t → (inp x).transClr = false ∧ (inp x).angClr = false) :
    ∃ d a k, (run step s inp t).latched d a k = true := by
  have hset := hup (e + 1) (by omega) het
  -- the edge that raised the general latch saw a level flag, which comes with its latched flag
  obtain ⟨d, a, k, hlev⟩ := exists_level_of_intlkLtc_step _ h₀ hset
  have hltc := latched_of_level hs low high hlev
  have stays : ∀ x, e ≤ x → x ≤ t → (run step s inp x).latched d a k = true := by
    intro x hx
    induction x, hx using Nat.le_induction with
    | base => exact fun _ => hltc
    | succ x hx ih =>
      intro hxt
      have hr := rstN_of_intlkLtc_step _ (hup (x + 1) (by omega) hxt)
      have hc := hclr x hx (by omega)
      refine latched_step_stays _ hr ?_ (ih (by omega))
      cases d
      · exact hc.1
      · exact hc.2
  exact ⟨d, a, k, stays t het.le le_rfl⟩

/-- **The latched status**, for every run after one reset: (a) each latch is up exactly when some
edge after its last clear set it; (b) each level flag comes with its latched flag; (c) the general
latch names a cause. -/
theorem latched_status :
    ((∀ t d a k, (run step s inp t).latched d a k = true ↔ ∃ e, n ≤ e ∧
        LatchedAt (fun e => (run step s inp e).det d a k && (run step s inp e).masterEn d)
          (fun e => (inp e).clrOf d) t e) ∧
      ∀ t, (run step s inp t).intlkLtc = true ↔ ∃ e, n ≤ e ∧
        LatchedAt (fun e => (run step s inp e).intlkAll (inp e)) (fun e => (inp e).clr) t e) ∧
    ((∀ t d a k, (run step s inp t).level d a k = true →
        (run step s inp t).latched d a k = true) ∧
      ∀ t, (run step s inp t).intlk = true → (run step s inp t).intlkLtc = true) ∧
    ∀ e t, e < t → (run step s inp e).intlkLtc = false →
      (∀ x, e < x → x ≤ t → (run step s inp x).intlkLtc = true) →
      (∀ x, e ≤ x → x < t → (inp x).transClr = false ∧ (inp x).angClr = false) →
      ∃ d a k, (run step s inp t).latched d a k = true :=
  ⟨⟨fun t d a k => latched_iff hs low high d a k t, fun t => intlkLtc_history hs low high t⟩,
    ⟨fun _ _ _ _ => latched_of_level hs low high, fun _ => intlkLtc_of_intlk hs⟩,
    fun _ _ => exists_latched hs low high⟩

end Runs

theorem powerUp_flagsDown (a : A.State) : (State.powerUp a).FlagsDown :=
  ⟨powerUp_levelsDown a, fun d _ k => by cases d <;> cases k <;> rfl, rfl, rfl⟩

/-- From power-up, the pair of the limits test leaves a cause while the general latch is up. -/
theorem onePair_cause : ∃ d a k,
    (run step (State.powerUp (A := Adder.twoStage 32) idleAdder) (scenario minSumConfig onePair)
      30).latched d a k = true := by
  have hop := scenario_operation minSumConfig onePair_spaced
  refine (latched_status (powerUp_flagsDown (A := Adder.twoStage 32) idleAdder) hop.reset.low
    hop.reset.high).2.2 18 30 (by omega) (by decide +kernel) ?_
    fun x _ _ => ⟨rfl, rfl⟩
  intro x hx hx'
  exact intlkLtc_stays _ _ (show 19 ≤ x by omega) (by decide +kernel)
    fun y hy _ => ⟨rfl, hop.reset.high y (by omega)⟩

end OrbitIntlk
