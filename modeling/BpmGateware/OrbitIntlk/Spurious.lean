import BpmGateware.OrbitIntlk.Trip

/-!
# Trips that no sample pair explains

For the first cycles after each pair the gate is already that pair's while the verdict is still
its predecessor's, so the gate of one pair can let the verdict on another through. Together with
the level flags, which survive the reset, these borrowed gates are all the trips that no pair
explains by itself.

## Main definitions

* `NoSpuriousTrip s inp n`: a trip has one pair that passes the gate and is out of limits
* `NoBorrowedGate inp`: no pair is let through by the gate of the next

## Main results

* `spurious_trip_iff`: when every trip has its own sample pair
-/

namespace OrbitIntlk

open Clocked

variable {w : ℕ} {A : GcBigAdder2 w}

/-- No pair that the gate holds back while out of limits is followed by one that opens the gate. -/
def NoBorrowedGate (inp : ℕ → Input w) : Prop :=
  ∀ u v, Consecutive (pairAt inp) u v → (inp u).OutOfLimits → (inp v).PassesGate →
    (inp u).PassesGate

namespace Operation

variable {inp : ℕ → Input w} {n : ℕ} {cfg : Config w} (s : State A)

/-! ## Which sample an alarm belongs to -/

/-- The gate of a pair, and the verdict on the last one `k` cycles old: where no gate is borrowed,
the pair of the verdict passes the gate itself. -/
theorem passesGate_of_gateOpen (h : Operation inp n cfg) (hgate : NoBorrowedGate inp)
    {c k u : ℕ} (hk : 4 ≤ k) (hk' : k ≤ 6) (hu : latest (pairAt inp) (c - k) = some u)
    (ho : (inp u).OutOfLimits) (hg : GateOpen inp cfg (c - 4)) : (inp u).PassesGate := by
  obtain ⟨huc, hvu, hno⟩ := latest_eq_some_iff.mp hu
  rcases hg with hm | ⟨v, hv, hs⟩
  · exact Or.inl (by rw [h.cfg_eq, hm])
  obtain ⟨hvc, hvv, hnov⟩ := latest_eq_some_iff.mp hv
  rcases Nat.lt_trichotomy u v with huv | rfl | hvu'
  · refine hgate u v ⟨hvu, hvv, huv, ?_⟩ ho (Or.inr hs)
    intro y hy hy'
    by_contra hvy
    have hvy' : pairAt inp y = true := by simpa using hvy
    rcases Nat.lt_or_ge y (c - k) with hlt | hge
    · exact hvy (hno y hy hlt)
    · simp [h.pairAt_spaced y v hvy' hy' (by omega)] at hvv
  · exact Or.inr hs
  · simp [hnov u hvu' (by omega)] at hvu

/-- **A level flag comes from a pair that trips**, where no gate is borrowed. -/
theorem exists_trips_of_level (h : Operation inp n cfg) (hgate : NoBorrowedGate inp)
    {c : ℕ} (hc : n ≤ c) {d : Detector} (hlev : (run step s inp (c + 1)).intlkOf d = true) :
    ∃ u, latest (pairAt inp) (c - d.latency) = some u ∧ TripsAt inp u := by
  rw [run_succ, intlkOf_step _ (h.reset.high c hc), Bool.and_eq_true] at hlev
  rcases Nat.eq_or_lt_of_le hc with rfl | hlt
  · simp [h.alarm_release s] at hlev
  obtain ⟨hen, hg, u, hu, ho⟩ := (h.alarm_iff s d hlt).mp hlev.2
  have hout : (inp u).OutOfLimits := Input.outOfLimits_iff.mpr ⟨d, by rwa [h.cfg_eq], ho⟩
  have hpass := h.passesGate_of_gateOpen hgate (by have := d.five_le_latency; omega)
    d.latency_le_six hu hout hg
  exact ⟨u, hu, (latest_eq_some_iff.mp hu).2.1, hpass, hout⟩

/-- No pair taken in after the reset has a verdict at its end. -/
theorem latest_pairAt_release (h : Operation inp n cfg) (d : Detector) :
    latest (pairAt inp) (n - 1 - d.latency) = none := by
  have hn := h.reset.three_le
  have hage := d.five_le_latency
  exact latest_eq_none_iff.mpr fun x hx => h.reset.taken_of_lt (by omega)

/-- An edge that raises the latch does so from a level flag. -/
theorem exists_level_of_raised (h : Operation inp n cfg) {t e : ℕ} (hne : n ≤ e)
    (hr : RaisedAt (fun t => (run step s inp t).intlkLtc) t e) :
    (∃ d, (run step s inp e).intlkOf d = true) ∧ (inp e).clr = false := by
  have hup := hr.up (e + 1) (Nat.lt_succ_self e) hr.lt
  simp only [run_succ, step, h.reset.high e hne, ltcNext_true, hr.down] at hup
  cases hclr : (inp e).clr with
  | true => simp [hclr] at hup
  | false =>
    simp only [hclr, State.intlkAll] at hup
    exact ⟨exists_intlkOf.mp (by simp_all), rfl⟩

end Operation

/-! ## Spurious trips -/

/-- The same run under other clears. -/
def withClears (inp : ℕ → Input w) (clr transClr angClr : ℕ → Bool) (t : ℕ) : Input w :=
  { inp t with clr := clr t, transClr := transClr t, angClr := angClr t }

/-- Whenever the latch is up after the release, the edge that raised it was set by pairs that trip
by themselves: the one of every detector whose level flag was up. -/
def NoSpuriousTrip (s : State A) (inp : ℕ → Input w) (n : ℕ) : Prop :=
  ∀ t, n ≤ t → (run step s inp t).intlkLtc = true →
    ∃ e, n ≤ e ∧ RaisedAt (fun t => (run step s inp t).intlkLtc) t e ∧
      (∃ d, (run step s inp e).intlkOf d = true) ∧
      ∀ d, (run step s inp e).intlkOf d = true → ∃ u, SetBy s inp e d u ∧ TripsAt inp u

section Spurious

variable {inp : ℕ → Input w} {n : ℕ} {cfg : Config w}

theorem Operation.withClears (h : Operation inp n cfg) (c tc ac : ℕ → Bool) :
    Operation (withClears inp c tc ac) n cfg :=
  ⟨h.reset, h.cfg_eq, h.paired, h.spaced⟩

/-- The interlock disabled never trips. -/
theorem Operation.intlkLtc_of_disabled (s : State A) (h : Operation inp n cfg)
    (hen : cfg.intlkEn = false) {t : ℕ} (ht : n ≤ t) : (run step s inp t).intlkLtc = false := by
  by_contra hltc
  obtain ⟨e, -, -, hset, -⟩ := (h.intlkLtc_iff s ht).mp (by simpa using hltc)
  simp [State.intlkAll, h.cfg_eq, hen] at hset

/-- Levels that survive the reset trip the interlock at its first edge. -/
theorem Operation.intlkLtc_of_levels (s : State A) (h : Operation inp n cfg)
    (hen : cfg.intlkEn = true) (hlev : ¬ s.LevelsDown) (hclr : (inp n).clr = false) :
    (run step s inp (n + 1)).intlkLtc = true := by
  refine (h.intlkLtc_iff s (by omega)).mpr ⟨n, le_rfl, by omega, ?_, ?_⟩
  · have hl := level_run_reset s h.reset.low le_rfl
    have hd : ¬ (run step s inp n).LevelsDown := by
      rw [State.LevelsDown, hl]
      exact hlev
    rw [levelsDown_iff, Bool.not_eq_false] at hd
    simp [State.intlkAll, hd, h.cfg_eq, hen]
  · intro x hx hx'
    rwa [show x = n by omega]

/-- Five cycles after a pair both detectors still show the one before it. -/
theorem Operation.latest_of_consecutive (h : Operation inp n cfg) {u v k : ℕ}
    (huv : Consecutive (pairAt inp) u v) (hk : 5 ≤ k) (hk' : k ≤ 6) :
    latest (pairAt inp) (v + 5 - k) = some u := by
  obtain ⟨hu, hv, hlt, hno⟩ := huv
  have hsp : u + 8 ≤ v := by
    by_contra hlt8
    simp [h.pairAt_spaced u v hu hlt (by omega)] at hv
  exact latest_eq_some_iff.mpr ⟨by omega, hu, fun x hx hx' => hno x hx (by omega)⟩

/-- **A borrowed gate**: two cycles before its own verdict, a pair that passes the gate lets the
verdict on its predecessor through. -/
theorem Operation.intlkLtc_of_borrowed (s : State A) (h : Operation inp n cfg)
    (hen : cfg.intlkEn = true) {u v : ℕ} (huv : Consecutive (pairAt inp) u v)
    (ho : (inp u).OutOfLimits) (hp : (inp v).PassesGate) (htc : (inp (v + 5)).transClr = false)
    (hac : (inp (v + 5)).angClr = false) (hclr : (inp (v + 6)).clr = false) :
    (run step s inp (v + 7)).intlkLtc = true := by
  have hnv : n ≤ v + 2 := h.le_of_pairAt huv.2.1
  have hg : Operation.GateOpen inp cfg (v + 5 - 4) := by
    refine hp.imp (fun hm => by rwa [h.cfg_eq] at hm) fun hs => ⟨v, ?_, hs⟩
    exact latest_eq_some_iff.mpr ⟨by omega, huv.2.1, fun x hx hx' => by omega⟩
  obtain ⟨d, hden, hout⟩ := Input.outOfLimits_iff.mp ho
  have hal := (h.alarm_iff s d (show n < v + 5 by omega)).mpr
    ⟨by rwa [h.cfg_eq] at hden, hg, u,
      h.latest_of_consecutive huv d.five_le_latency d.latency_le_six, hout⟩
  have hcl : (inp (v + 5)).clrOf d = false := by
    cases d
    · exact htc
    · exact hac
  exact h.intlkLtc_of_alarm s hen (by omega) hal hcl hclr

/-- **Every trip has its own pair**, where no gate is borrowed and no level survived the reset. -/
theorem Operation.noSpuriousTrip (s : State A) (h : Operation inp n cfg) (hlev : s.LevelsDown)
    (hgate : NoBorrowedGate inp) : NoSpuriousTrip s inp n := by
  intro t ht hltc
  obtain ⟨e, hne, hr⟩ := exists_raisedAt (l := fun t => (run step s inp t).intlkLtc)
    (h.intlkLtc_release s) ht hltc
  obtain ⟨⟨d, hd⟩, hclr⟩ := h.exists_level_of_raised s hne hr
  refine ⟨e, hne, hr, ⟨d, hd⟩, ?_⟩
  intro d hd
  rcases Nat.eq_or_lt_of_le hne with rfl | hlt
  · -- the first edge after the release: the levels are those from before the reset
    have hdown : (run step s inp n).LevelsDown := by
      rw [State.LevelsDown, level_run_reset s h.reset.low le_rfl]
      exact hlev
    have hoff := levelsDown_iff.mp hdown
    have hon := exists_intlkOf.mpr ⟨d, hd⟩
    simp [hoff] at hon
  · obtain ⟨c, rfl⟩ := Nat.exists_eq_add_of_le' (show 1 ≤ e by omega)
    obtain ⟨u, hu, htrip⟩ := h.exists_trips_of_level s hgate (by omega) hd
    exact ⟨u, ⟨hd, by rwa [Nat.add_sub_cancel], hclr⟩, htrip⟩

/-- Levels that survived the reset raise the latch at its end, and no pair explains it. -/
theorem Operation.levelsDown_of_noSpuriousTrip (s : State A) (h : Operation inp n cfg)
    (hen : cfg.intlkEn = true) (hclr : (inp n).clr = false) (hns : NoSpuriousTrip s inp n) :
    s.LevelsDown := by
  by_contra hlev
  obtain ⟨e, hne, hr, ⟨d, hd⟩, hall⟩ :=
    hns (n + 1) (by omega) (h.intlkLtc_of_levels s hen hlev hclr)
  obtain rfl : e = n := by have := hr.lt; omega
  obtain ⟨u, hset, -⟩ := hall d hd
  cases (h.latest_pairAt_release d).symm.trans hset.pair

/-- **When every trip has its own sample pair**, whatever is cleared and when: exactly when the
interlock is disabled, or no level flag survived the reset and no pair borrows the gate of the
next. -/
theorem spurious_trip_iff (s : State A) (h : Operation inp n cfg) :
    (∀ clr transClr angClr, NoSpuriousTrip s (withClears inp clr transClr angClr) n) ↔
      cfg.intlkEn = false ∨ (s.LevelsDown ∧ NoBorrowedGate inp) := by
  constructor
  · intro hns
    by_cases hen : cfg.intlkEn = false
    · exact Or.inl hen
    have hen' : cfg.intlkEn = true := by simpa using hen
    refine Or.inr ⟨?_, ?_⟩
    · exact (h.withClears (fun _ => false) (fun _ => false) fun _ =>
        false).levelsDown_of_noSpuriousTrip s hen' rfl (hns _ _ _)
    · intro u v huv ho hp
      -- the latch is cleared up to the cycle in which the gate of `v` meets the verdict on `u`
      have h' := h.withClears (fun x => decide (x ≤ v + 5)) (fun _ => false) fun _ => false
      have hltc := h'.intlkLtc_of_borrowed s hen' huv ho hp rfl rfl (by simp [withClears])
      have hnv : n ≤ v + 2 := h.le_of_pairAt huv.2.1
      obtain ⟨e, hne, hr, ⟨d, hd⟩, hall⟩ := hns _ _ _ (v + 7) (by omega) hltc
      have hdown : (run step s (withClears inp (fun x => decide (x ≤ v + 5)) (fun _ => false)
          fun _ => false) (v + 6)).intlkLtc = false := by
        simp [run_succ, step, ltcNext, withClears]
      obtain rfl : e = v + 6 := by
        have := hr.lt
        by_contra hne'
        simp [hr.up (v + 6) (by omega) (by omega)] at hdown
      obtain ⟨u', hset, htrip⟩ := hall d hd
      obtain rfl : u' = u := by
        have hpair := hset.pair
        rw [show v + 6 - 1 = v + 5 by omega,
          h'.latest_of_consecutive huv d.five_le_latency d.latency_le_six] at hpair
        exact (Option.some.inj hpair).symm
      exact htrip.2.1
  · rintro (hen | ⟨hlev, hgate⟩) c tc ac
    · intro t ht hltc
      simp [(h.withClears c tc ac).intlkLtc_of_disabled s hen ht] at hltc
    · exact (h.withClears c tc ac).noSpuriousTrip s hlev hgate

/-- The pair of its test 5, outside the limits with too small a sum, and ten cycles later the pair
of its test 6, within the limits with a large one. -/
def weakThenStrong (t : ℕ) : Option (Sample 32 × Sample 32) :=
  if t = 10 then
    some (⟨0x1000000, 0x1000000, 0, 0x100⟩, ⟨0x1000000, 0x1000000, 0, 0x500⟩)
  else if t = 20 then
    some (⟨0x100000, 0x100000, 0, 0x10000⟩, ⟨0xFFFFF000, 0xFFFFF000, 0, 0x10000⟩)
  else none

theorem weakThenStrong_spaced : Spaced 8 fun t => (weakThenStrong t).isSome := by
  intro u x hu hx hx'
  have hu' : u = 10 ∨ u = 20 := by
    by_contra hne
    rw [not_or] at hne
    simp [weakThenStrong, hne] at hu
  rcases hu' with rfl | rfl
  · simp [weakThenStrong, show x ≠ 10 by omega, show x ≠ 20 by omega]
  · simp [weakThenStrong, show x ≠ 10 by omega, show x ≠ 20 by omega]

/-- The pair of the scenario is there at cycle `u`. -/
theorem isSome_of_pairAt {cfg : Config w} {f : ℕ → Option (Sample w × Sample w)} {u : ℕ}
    (hu : pairAt (scenario cfg f) u = true) : (f u).isSome = true := by
  simp only [pairAt, taken, scenario, Input.posValid, Bool.and_self, Bool.and_eq_true] at hu
  exact hu.2

/-- **A trip that no pair explains**: neither the weak pair, held back by the gate, nor the strong
one, within its limits, trips by itself, but together they do. -/
theorem weakThenStrong_spurious :
    Operation (scenario minSumConfig weakThenStrong) 8 minSumConfig ∧
      ¬ NoSpuriousTrip (State.powerUp (A := Adder.twoStage 32) idleAdder)
        (scenario minSumConfig weakThenStrong) 8 := by
  refine ⟨scenario_operation _ weakThenStrong_spaced, ?_⟩
  intro h
  have hltc : (run step (State.powerUp (A := Adder.twoStage 32) idleAdder)
      (scenario minSumConfig weakThenStrong) 27).intlkLtc = true := by decide +kernel
  obtain ⟨e, -, -, ⟨d, hd⟩, hall⟩ := h 27 (by omega) hltc
  obtain ⟨u, -, hu, hp, ho⟩ := hall d hd
  have hf := isSome_of_pairAt hu
  by_cases h₁ : u = 10
  · subst h₁
    exact absurd hp (by decide)
  by_cases h₂ : u = 20
  · subst h₂
    exact absurd ho (by decide)
  simp [weakThenStrong, h₁, h₂] at hf

/-- A single pair cannot borrow a gate, and raises the latch by itself. -/
theorem onePair_explained :
    NoSpuriousTrip (State.powerUp (A := Adder.twoStage 32) idleAdder)
        (withClears (scenario minSumConfig onePair) (fun _ => false) (fun t => decide (t = 12))
          fun _ => false) 8 ∧
      (run step (State.powerUp (A := Adder.twoStage 32) idleAdder)
        (withClears (scenario minSumConfig onePair) (fun _ => false) (fun t => decide (t = 12))
          fun _ => false) 19).intlkLtc = true := by
  refine ⟨(spurious_trip_iff _ (scenario_operation _ onePair_spaced)).mpr (Or.inr
    ⟨powerUp_levelsDown _, fun u v huv => ?_⟩) _ _ _, by decide +kernel⟩
  have hone : ∀ x, pairAt (scenario minSumConfig onePair) x = true → x = 10 := fun x hx => by
    by_contra hne
    simpa [onePair, hne] using isSome_of_pairAt hx
  have := huv.2.2.1
  exact absurd this (by rw [hone u huv.1, hone v huv.2.1]; omega)

end Spurious

end OrbitIntlk
