import BpmGateware.Clocked.Hold
import BpmGateware.BpmSwap.Sync

/-!
# The switching clock

The levels of `clk_swap` last as long as the divider says, in counted edges. The terminal count is
a register of two stages that may move at any edge, but the counter is cleared whenever the stages
differ, so it never gets beyond the terminal count and the equality test that ends a half period is
always met.

A settled divider that counts at every edge goes through a period of `2 * N` positions, the high
half period and then the low one. A trigger is served by going to position `0`. Triggers a multiple
of the period apart find the divider at one and the same position: either where they are dropped, or
where their service is what the divider would have done anyway. The first trigger decides which.

Right after a reset the levels are not of that length: the divider registers come out of reset as
for a division by one, and the clock goes low for a single cycle before the setting arrives.

## Main definitions

* `Freq.Bounded`: the count has not passed the terminal count
* `Phase.position N`: the place of a phase in the period of a divider by `N`
* `InStep N off t`: the phase that a run on time has at cycle `t`
* `LevelsLast N l`: every level between two changes lasts at least `N` cycles

## Main results

* `count_bounded_period_exact`: the counter is bounded, and a half period is `N` counted edges
* `inStep_step`: triggers in phase leave the divider on time
* `in_phase_triggers`: triggers in phase change no half period
* `runt_after_reset`: the short level after a reset
-/

namespace BpmSwap

open Clocked

variable {w d : ℕ} {D : BitVec w}

/-! ## The counter is bounded -/

/-- The count has not passed the terminal count. -/
def Freq.Bounded (s : Freq) : Prop := s.phase.count ≤ s.cnstSwapDivF

theorem freqStep_count (s : Freq) {i : FreqIn w} (hr : i.rstN = true) :
    (freqStep s i).phase.count = (s.advance i).count := by
  rw [phase_step hr]
  split <;> rfl

theorem freqStep_clkSwap (s : Freq) {i : FreqIn w} (hr : i.rstN = true) :
    (freqStep s i).phase.clkSwap = (s.advance i).clkSwap := by
  rw [phase_step hr]
  split <;> rfl

theorem bounded_step {s : Freq} (hs : s.Bounded) (i : FreqIn w) : (freqStep s i).Bounded := by
  by_cases hr : i.rstN = true
  · have hc := freqStep_count s hr
    have hd : (freqStep s i).cnstSwapDivF =
        if i.en then s.cnstSwapDivFOld else s.cnstSwapDivF := by simp [freqStep, hr]
    unfold Freq.Bounded at hs ⊢
    rw [hc, hd]
    unfold Freq.advance
    by_cases he : i.en = true
    · by_cases hne : s.cnstSwapDivF = s.cnstSwapDivFOld
      · rw [if_neg (by simp [he]), if_neg (by simp [hne]), if_pos he, ← hne]
        split_ifs
        · exact hs
        · exact Nat.zero_le _
        · exact Nat.zero_le _
        · simp only
          omega
      · simp [he, hne]
    · simpa [he] using hs
  · simp [freqStep, hr, Freq.Bounded, Freq.reset]

theorem bounded_run {s : Freq} (hs : s.Bounded) (inp : ℕ → FreqIn w) (t : ℕ) :
    (run freqStep s inp t).Bounded := by
  apply run_invariant (I := fun _ s => Freq.Bounded s) hs
  intro t s hs
  exact bounded_step hs (inp t)

/-! ## A half period is `N` counted edges -/

/-- An edge that serves a pending synchronisation. -/
def Freq.serves (s : Freq) (i : FreqIn w) : Bool :=
  i.counted && decide (s.cnstSwapDivF = s.cnstSwapDivFOld) && s.phase.synchPending

/-- `clk_swap` in a run. -/
def clkSwapOf (s : Freq) (inp : ℕ → FreqIn w) (t : ℕ) : Bool := (run freqStep s inp t).phase.clkSwap

/-- Every edge that changes the switching clock clears the count. -/
theorem count_of_change {s : Freq} {i : FreqIn w}
    (h : (freqStep s i).phase.clkSwap ≠ s.phase.clkSwap) : (freqStep s i).phase.count = 0 := by
  by_cases hr : i.rstN = true
  · rw [freqStep_clkSwap s hr] at h
    rw [freqStep_count s hr]
    revert h
    unfold Freq.advance
    split_ifs <;> simp
  · simp [freqStep, hr, Freq.reset]

/-- One edge of a divider with both stages at `n`, out of reset and serving nothing. -/
theorem free_edge {s : Freq} {i : FreqIn w} {n : ℕ} (hr : i.rstN = true) (hv : s.serves i = false)
    (hd : s.cnstSwapDivF = n) (ho : s.cnstSwapDivFOld = n) :
    ((freqStep s i).phase.count = if i.counted = false then s.phase.count
      else if s.phase.count = n then 0 else s.phase.count + 1) ∧
    ((freqStep s i).phase.clkSwap ≠ s.phase.clkSwap ↔ i.counted = true ∧ s.phase.count = n) := by
  rw [freqStep_count s hr, freqStep_clkSwap s hr, advance_of_eq (hd.trans ho.symm), hd]
  cases hc : i.counted with
  | false => simp
  | true =>
    have hp : s.phase.synchPending = false := by
      simpa [Freq.serves, hc, hd, ho] using hv
    by_cases hn : s.phase.count = n <;> simp [hp, hn]

/-- **The exact half period**: from one change of the switching clock to the next, with no reset, no
synchronisation served and both stages at `n`, there are `n + 1` counted edges. -/
theorem card_counted_of_consecutive {s : Freq} {inp : ℕ → FreqIn w} {e₁ e₂ n : ℕ}
    (he : Consecutive (changes (clkSwapOf s inp)) e₁ e₂)
    (hr : ∀ x, e₁ < x → x ≤ e₂ → (inp x).rstN = true)
    (hv : ∀ x, e₁ < x → x ≤ e₂ → (run freqStep s inp x).serves (inp x) = false)
    (hd : ∀ x, e₁ < x → x ≤ e₂ → (run freqStep s inp x).cnstSwapDivF = n ∧
      (run freqStep s inp x).cnstSwapDivFOld = n) :
    (strobes (fun x => (inp x).counted) (e₁ + 1) (e₂ + 1)).card = n + 1 := by
  obtain ⟨h₁, h₂, hlt, hno⟩ := he
  have hfree := fun x hx hx' =>
    free_edge (hr x hx hx') (hv x hx hx') (hd x hx hx').1 (hd x hx hx').2
  -- between the changes the count is the number of counted edges so far
  have hcount : ∀ x, e₁ < x → x ≤ e₂ → (run freqStep s inp x).phase.count =
      (strobes (fun x => (inp x).counted) (e₁ + 1) x).card := by
    intro x hx
    induction x, hx using Nat.le_induction with
    | base =>
      intro _
      rw [card_strobes_self]
      exact count_of_change (changes_eq_true.mp h₁)
    | succ x hx ih =>
      intro hxe
      obtain ⟨hc, hch⟩ := hfree x hx (by omega)
      have hstays := changes_eq_false.mp (hno x hx (by omega))
      have hnot : ¬ ((inp x).counted = true ∧ (run freqStep s inp x).phase.count = n) :=
        fun h => hch.mpr h hstays
      rw [card_strobes_succ hx, ← ih (by omega), run_succ, hc]
      cases hcn : (inp x).counted with
      | false => simp
      | true =>
        have hne : ¬ (run freqStep s inp x).phase.count = n := fun h => hnot ⟨hcn, h⟩
        simp [hne]
  obtain ⟨hlast, hterm⟩ := (hfree e₂ hlt le_rfl).2.mp (changes_eq_true.mp h₂)
  rw [card_strobes_succ hlt, ← hcount e₂ hlt le_rfl, hterm, if_pos hlast]

/-- **Bounded counter and exact period**: in every run from reset, under any settings, enables and
triggers, the count never passes the terminal count, and between two consecutive changes of the
switching clock, out of reset, with no synchronisation served and both divider registers at
`N - 1`, there are exactly `N` counted edges. -/
theorem count_bounded_period_exact (inp : ℕ → FreqIn w) :
    (∀ t, (run freqStep Freq.reset inp t).phase.count ≤
      (run freqStep Freq.reset inp t).cnstSwapDivF) ∧
    ∀ e₁ e₂ N, Consecutive (changes (clkSwapOf Freq.reset inp)) e₁ e₂ →
      (∀ x, e₁ < x → x ≤ e₂ → (inp x).rstN = true ∧
        (run freqStep Freq.reset inp x).serves (inp x) = false ∧
        (run freqStep Freq.reset inp x).cnstSwapDivF + 1 = N ∧
        (run freqStep Freq.reset inp x).cnstSwapDivFOld + 1 = N) →
      (strobes (fun x => (inp x).counted) (e₁ + 1) (e₂ + 1)).card = N := by
  have hreset : Freq.reset.Bounded := Nat.le_refl 0
  refine ⟨bounded_run hreset inp, ?_⟩
  intro e₁ e₂ N he h
  obtain ⟨n, rfl⟩ : ∃ n, N = n + 1 := ⟨_, (h e₂ he.2.2.1 le_rfl).2.2.1.symm⟩
  apply card_counted_of_consecutive he
  · exact fun x hx hx' => (h x hx hx').1
  · exact fun x hx hx' => (h x hx hx').2.1
  · exact fun x hx hx' => ⟨Nat.succ.inj (h x hx hx').2.2.1, Nat.succ.inj (h x hx hx').2.2.2⟩

/-- The low level of a divider by two, from edge `3` to edge `5` after its reset. -/
theorem dividerByTwo_period :
    (strobes (fun x => (dividerByTwo 100 x).counted) 4 6).card = 2 := by
  refine (count_bounded_period_exact (dividerByTwo 100)).2 3 5 2
    ⟨by decide, by decide, by decide, ?_⟩ ?_
  · intro y hy hy'
    obtain rfl : y = 4 := by omega
    decide
  · intro x hx hx'
    obtain rfl | rfl : x = 4 ∨ x = 5 := by omega
    · decide
    · decide

/-! ## The period -/

/-- The place of a phase in the period: the high half period, then the low one. -/
def Phase.position (N : ℕ) (p : Phase) : ℕ := p.count + if p.clkSwap then 0 else N

/-- **On time**: at cycle `t` the phase is at position `t + off` of the period, and a pending
trigger is found only at the last position, where its service is what the divider does anyway. -/
structure InStep (N off t : ℕ) (p : Phase) : Prop where
  count_lt : p.count < N
  position : p.position N = (t + off) % (2 * N)
  pending : p.synchPending = true → p.position N = 2 * N - 1

/-- The two places where a trigger finds a divider that is on time: the last count of the high half
period, and the last but one position. -/
def TriggerOffset (N off : ℕ) : Prop := off = N - 1 ∨ off = 2 * N - 2

section Period

variable {N off t : ℕ} {p : Phase}

theorem InStep.count_eq (h : InStep N off t p) : p.count = (t + off) % N := by
  have hp := h.position
  rw [← Nat.mod_mod_of_dvd (t + off) (Nat.dvd_mul_left N 2), ← hp, Phase.position]
  cases p.clkSwap <;> simp [Nat.mod_eq_of_lt h.count_lt]

/-- A settled divider on time moves to the next position, and serves what is pending. -/
theorem InStep.advance {s : Freq} {i : FreqIn w} (hs : s.Settled D) (hi : i.counted = true)
    (h : InStep D.toNat off t s.phase) :
    (s.advance i).count < D.toNat ∧
      (s.advance i).position D.toNat = (t + 1 + off) % (2 * D.toNat) ∧
      (s.advance i).synchPending = false := by
  have hlt := h.count_lt
  have hN : 0 < D.toNat := by omega
  have hnext : (t + 1 + off) % (2 * D.toNat) =
      (s.phase.position D.toNat + 1) % (2 * D.toNat) := by
    rw [h.position, Nat.mod_add_mod, Nat.add_right_comm]
  rw [hnext, advance_settled hs, if_neg (by simp [hi])]
  by_cases hp : s.phase.synchPending = true
  · -- the last position: the service is the natural end of the period
    rw [if_pos hp, h.pending hp, show 2 * D.toNat - 1 + 1 = 2 * D.toNat by omega, Nat.mod_self]
    exact ⟨hN, rfl, rfl⟩
  · rw [if_neg hp]
    by_cases hc : s.phase.count = D.toNat - 1
    · rw [if_pos hc]
      refine ⟨hN, ?_, by simpa using hp⟩
      cases hk : s.phase.clkSwap with
      | true =>
        have hpos : s.phase.position D.toNat + 1 = D.toNat := by simp [Phase.position, hk]; omega
        rw [hpos, Nat.mod_eq_of_lt (by omega)]
        simp [Phase.position]
      | false =>
        have hpos : s.phase.position D.toNat + 1 = 2 * D.toNat := by
          simp [Phase.position, hk]
          omega
        rw [hpos, Nat.mod_self]
        simp [Phase.position]
    · rw [if_neg hc]
      have hcount : s.phase.count + 1 < D.toNat := by omega
      refine ⟨hcount, ?_, by simpa using hp⟩
      have hpos : s.phase.position D.toNat + 1 < 2 * D.toNat := by
        unfold Phase.position
        split_ifs <;> omega
      rw [Nat.mod_eq_of_lt hpos]
      unfold Phase.position
      simp only
      omega

/-- A divider on time drops a trigger at the last count of its high half period, and nowhere
else. -/
theorem InStep.drops_iff {s : Freq} (hs : s.Settled D) (h : InStep D.toNat off t s.phase) :
    s.Drops ↔ s.phase.position D.toNat = D.toNat - 1 := by
  have hlt := h.count_lt
  unfold Freq.Drops Phase.position
  rw [hs.cnst]
  cases s.phase.clkSwap <;> simp
  omega

/-- **Triggers in phase leave the divider on time**: they are dropped, or pending at the last
position. -/
theorem inStep_step {s : Freq} {i : FreqIn w} (hs : s.Settled D) (hr : i.rstN = true)
    (hi : i.counted = true) (hoff : TriggerOffset D.toNat off)
    (htrig : i.syncTrig = true → 2 * D.toNat ∣ t) (h : InStep D.toNat off t s.phase) :
    InStep D.toNat off (t + 1) (freqStep s i).phase := by
  obtain ⟨hc, hpos, hpend⟩ := h.advance hs hi
  rw [phase_step hr]
  by_cases hset : i.syncTrig = true ∧ ¬ s.Drops
  · rw [if_pos hset]
    refine ⟨hc, hpos, fun _ => ?_⟩
    -- the trigger finds the divider at the offset, which is not the place where it is dropped
    have hlt := h.count_lt
    have hmod : (t + off) % (2 * D.toNat) = off % (2 * D.toNat) := by
      obtain ⟨m, rfl⟩ := htrig hset.1
      rw [Nat.mul_add_mod]
    have hnot := (not_congr (h.drops_iff hs)).mp hset.2
    rw [h.position, hmod] at hnot
    rcases hoff with rfl | rfl
    · rw [Nat.mod_eq_of_lt (by omega)] at hnot
      exact absurd rfl hnot
    · have hself : (2 * D.toNat - 2) % (2 * D.toNat) = 2 * D.toNat - 2 :=
        Nat.mod_eq_of_lt (by omega)
      rw [hself] at hnot hmod
      have hlast : 2 * D.toNat - 2 + 1 = 2 * D.toNat - 1 := by omega
      rw [Nat.add_right_comm, ← Nat.mod_add_mod, hmod, hlast, Nat.mod_eq_of_lt (by omega)] at hpos
      exact hpos
  · rw [if_neg hset]
    exact ⟨hc, hpos, fun hp => by simp [hpend] at hp⟩

theorem dvd_add_one_iff {x : ℕ} (hN : 0 < N) : N ∣ x + 1 ↔ x % N = N - 1 := by
  have hlt := Nat.mod_lt x hN
  rw [Nat.dvd_iff_mod_eq_zero, ← Nat.mod_add_mod]
  rcases Nat.lt_or_ge (x % N + 1) N with h | h
  · rw [Nat.mod_eq_of_lt h]
    omega
  · rw [show x % N + 1 = N by omega, Nat.mod_self]
    omega

/-- The switching clock of a divider on time changes where its half periods end. -/
theorem InStep.change_iff {s : Freq} {i : FreqIn w} (hs : s.Settled D) (hr : i.rstN = true)
    (hi : i.counted = true) (h : InStep D.toNat off t s.phase) :
    (freqStep s i).phase.clkSwap ≠ s.phase.clkSwap ↔ D.toNat ∣ t + off + 1 := by
  have hlt := h.count_lt
  rw [dvd_add_one_iff (by omega), ← h.count_eq, freqStep_clkSwap s hr, advance_settled hs,
    if_neg (by simp [hi])]
  by_cases hp : s.phase.synchPending = true
  · have hlast := h.pending hp
    unfold Phase.position at hlast
    cases hk : s.phase.clkSwap with
    | true =>
      simp only [hk, if_true] at hlast
      omega
    | false =>
      simp only [hk, Bool.false_eq_true, if_false] at hlast
      simp [hp]
      omega
  · by_cases hc : s.phase.count = D.toNat - 1
    · simp [hp, hc]
    · simp [hp, hc]

end Period

/-! ## Triggers in phase -/

/-- A run that counts at every edge, with triggers at the first edge and otherwise only whole
periods after it. -/
structure InPhase (inp : ℕ → FreqIn w) (D : BitVec w) : Prop where
  driven : Driven inp D
  counted : ∀ t, (inp t).counted = true
  first : (inp 0).syncTrig = true
  later : ∀ t, (inp t).syncTrig = true → 2 * D.toNat ∣ t

section InPhase

variable {inp : ℕ → FreqIn w} {s : Freq} (h : InPhase inp D) (hs : s.Settled D) (hD : 1 ≤ D.toNat)

include h hs

theorem inStep_run {off b t : ℕ} (hoff : TriggerOffset D.toNat off)
    (hb : InStep D.toNat off b (run freqStep s inp b).phase) (ht : b ≤ t) :
    InStep D.toNat off t (run freqStep s inp t).phase := by
  induction t, ht using Nat.le_induction with
  | base => exact hb
  | succ t _ ih =>
    exact inStep_step (settled_run h.driven hs t) (h.driven.rstN t) (h.counted t) hoff
      (h.later t) ih

theorem change_run_iff {off b t : ℕ} (hoff : TriggerOffset D.toNat off)
    (hb : InStep D.toNat off b (run freqStep s inp b).phase) (ht : b ≤ t) :
    changes (clkSwapOf s inp) t = true ↔ D.toNat ∣ t + off + 1 := by
  rw [changes_eq_true]
  exact (inStep_run h hs hoff hb ht).change_iff (settled_run h.driven hs t) (h.driven.rstN t)
    (h.counted t)

include hD

/-- **The first trigger decides**: dropped, it leaves the divider at the start of its low half
period; taken, it is served at the next edge. Either way the divider is on time from then on. -/
theorem exists_inStep (hp : s.phase.synchPending = false) :
    ∃ off, TriggerOffset D.toNat off ∧ InStep D.toNat off 2 (run freqStep s inp 2).phase ∧
      (changes (clkSwapOf s inp) 1 = true → D.toNat ∣ 1 + off + 1) := by
  have hr := h.driven.rstN
  by_cases hk : s.Drops
  · have hstart : (run freqStep s inp 1).phase = ⟨0, false, false⟩ := by
      rw [run_succ, run_zero, phase_step (hr 0), if_neg (fun h => h.2 hk), advance_settled hs]
      simp [h.counted 0, hp, ← hs.cnst, hk.1, hk.2]
    have hin : InStep D.toNat (D.toNat - 1) 1 (run freqStep s inp 1).phase := by
      rw [hstart]
      refine ⟨hD, ?_, by simp⟩
      rw [show 1 + (D.toNat - 1) = D.toNat by omega, Nat.mod_eq_of_lt (by omega)]
      simp [Phase.position]
    have hoff : TriggerOffset D.toNat (D.toNat - 1) := Or.inl rfl
    exact ⟨_, hoff, inStep_run h hs hoff hin (by omega),
      (change_run_iff h hs hoff hin le_rfl).mp⟩
  · have hpend : (run freqStep s inp 1).phase.synchPending = true :=
      synchPending_of_trig (hr 0) h.first hk
    have hquiet : (inp 1).syncTrig = false := by
      by_contra htrig
      have hdvd := h.later 1 (by simpa using htrig)
      have hle := Nat.le_of_dvd Nat.one_pos hdvd
      omega
    have hserved : (run freqStep s inp 2).phase = ⟨0, true, false⟩ := by
      rw [run_succ, phase_served (settled_run h.driven hs 1) (hr 1) (h.counted 1) hpend, hquiet]
      rfl
    refine ⟨2 * D.toNat - 2, Or.inr rfl, ?_, ?_⟩
    · rw [hserved]
      refine ⟨hD, ?_, by simp⟩
      rw [show 2 + (2 * D.toNat - 2) = 2 * D.toNat by omega, Nat.mod_self]
      simp [Phase.position]
    · intro _
      exact ⟨2, by omega⟩

end InPhase

/-- A divider by two that counts at every edge, with a trigger at every period. -/
def everyPeriod (t : ℕ) : FreqIn 16 := ⟨true, true, decide (4 ∣ t), 2, true⟩

/-- Every level between two changes lasts at least `N` cycles. -/
def LevelsLast (N : ℕ) (l : ℕ → Bool) : Prop :=
  ∀ e₁ e₂, Consecutive (changes l) e₁ e₂ → e₁ + N ≤ e₂

/-- Changes at two edges in a row leave a level of one cycle. -/
theorem not_levelsLast {N t : ℕ} {l : ℕ → Bool} (hN : 2 ≤ N) (h₁ : changes l t = true)
    (h₂ : changes l (t + 1) = true) : ¬ LevelsLast N l := by
  intro h
  have hle := h t (t + 1) ⟨h₁, h₂, by omega, fun y hy hy' => by omega⟩
  omega

variable {R : ShiftReg d}

/-- A run of `swap_freqgen` out of reset: constant divider setting, every edge counted, no trigger,
and a mode in which the front end switches. -/
structure FreeRunning (inp : ℕ → GenIn w d) (D : BitVec w) : Prop where
  driven : Driven (fun t => (inp t).toFreqIn) D
  counted : ∀ t, (inp t).counted = true
  quiet : ∀ t, (inp t).syncTrig = false
  mode : ∀ t, (inp t).swapMode = .swapDeswap ∨ (inp t).swapMode = .rffeSwap

/-- While the front end switches, the swap register is the switching clock one cycle later. -/
theorem FreeRunning.swap_succ {inp : ℕ → GenIn w d} (h : FreeRunning inp D) (s : SwapGen R)
    (t : ℕ) :
    (run genStep s inp (t + 1)).swap = (run genStep s inp t).freq.phase.clkSwap := by
  have hr : (inp t).rstN = true := h.driven.rstN t
  rw [run_succ, genStep, hr]
  rcases h.mode t with hm | hm <;> simp [hm, selSwap]

/-- The first three cycles: the terminal count of a division by one ends the first half period at
once, and the arrival of the setting ends the second. -/
theorem FreeRunning.first_cycles {inp : ℕ → GenIn w d} (h : FreeRunning inp D) (hN : 2 ≤ D.toNat)
    {s : SwapGen R} (hs : s.freq = Freq.reset) :
    (run genStep s inp 0).freq.phase.clkSwap = true ∧
      (run genStep s inp 1).freq.phase.clkSwap = false ∧
      (run genStep s inp 2).freq.phase.clkSwap = true := by
  have hen : ∀ t, (inp t).en = true ∧ (inp t).cntEn = true := by
    intro t
    simpa [FreqIn.counted] using h.counted t
  have hone : (run genStep s inp 1).freq = ⟨⟨0, false, false⟩, 0, D.toNat - 1⟩ := by
    have hr : (inp 0).rstN = true := h.driven.rstN 0
    have hd : (inp 0).swapDivF = D := h.driven.div 0
    rw [run_succ, run_zero, genStep, hs]
    simp [freqStep, Freq.advance, Freq.reset, hr, hd, hen, h.quiet]
  refine ⟨by rw [run_zero, hs]; rfl, by rw [hone], ?_⟩
  have hr : (inp 1).rstN = true := h.driven.rstN 1
  have hne : ¬ 0 = D.toNat - 1 := by omega
  rw [run_succ, genStep, hone]
  simp only [freqStep_clkSwap _ hr, Freq.advance, hen, hne, Bool.true_eq_false, if_false, ne_eq,
    not_false_eq_true, if_true]

/-- **The short level after a reset**: in every run that leaves reset with a divider of at least
two, the switching clock and the swap register both have a level that lasts less than `N` cycles. -/
theorem runt_after_reset {inp : ℕ → GenIn w d} {s : SwapGen R} (hs : s.freq = Freq.reset)
    (hN : 2 ≤ D.toNat) (h : FreeRunning inp D) :
    ¬ LevelsLast D.toNat (fun t => (run genStep s inp t).freq.phase.clkSwap) ∧
      ¬ LevelsLast D.toNat fun t => (run genStep s inp (t + 1)).swap := by
  obtain ⟨h₀, h₁, h₂⟩ := h.first_cycles hN hs
  have hclk : ¬ LevelsLast D.toNat fun t => (run genStep s inp t).freq.phase.clkSwap := by
    apply not_levelsLast (t := 0) hN
    · rw [changes_eq_true, h₀, h₁]
      exact Bool.noConfusion
    · rw [changes_eq_true, h₁, h₂]
      exact Bool.noConfusion
  refine ⟨hclk, ?_⟩
  simp only [h.swap_succ s]
  exact hclk

/-- A divider by a thousand that counts at every edge. -/
def byThousand (_ : ℕ) : GenIn 16 4 :=
  { rstN := true, en := true, syncTrig := false, swapDivF := 1000, cntEn := true,
    swapMode := .swapDeswap, deswapDelay := 0 }

/-- The registers of `swap_freqgen` after a reset. -/
def genReset : SwapGen (ShiftReg.unbounded 4) := ⟨Freq.reset, false, false, fun _ => false⟩

theorem byThousand_runt :
    ¬ LevelsLast 1000 fun t => (run genStep genReset byThousand (t + 1)).swap := by
  have hrun : FreeRunning byThousand 1000#16 :=
    ⟨⟨fun _ => rfl, fun _ => rfl⟩, fun _ => rfl, fun _ => rfl, fun _ => Or.inl rfl⟩
  exact (runt_after_reset (D := 1000#16) rfl (by decide) hrun).2

/-- **One cycle of the direct path**: with a divider by a thousand the swap command is up, down
for a single cycle, and up again. -/
theorem byThousand_first_levels :
    ((run genStep genReset byThousand 1).swap = true ∧
      (run genStep genReset byThousand 2).swap = false ∧
      (run genStep genReset byThousand 3).swap = true) ∧
    ¬ LevelsLast 1000 (fun t => (run genStep genReset byThousand t).freq.phase.clkSwap) ∧
    ¬ LevelsLast 1000 fun t => (run genStep genReset byThousand (t + 1)).swap :=
  ⟨by decide, not_levelsLast (t := 0) (by decide) (by decide) (by decide),
    not_levelsLast (t := 0) (by decide) (by decide) (by decide)⟩

end BpmSwap
