import BpmGateware.BpmSwap.Basic

/-!
# Synchronisation of the generators

A trigger is stored as `synch_pending` and served at the next counted edge, where the counter and
the switching clock start again. Two generators with the same settled divider that both store a
trigger are in the same phase after that edge, and remain so under the same inputs. But a
generator at the last count of its high half period drops the trigger and toggles to the low half
period instead, which is the opposite phase.

## Main definitions

* `Freq.Settled D`: both divider registers have taken the setting `D`
* `Driven inp D`: no reset, and a constant divider setting

## Main results

* `phase_step`: one edge of a settled divider
* `sync_converges`: a trigger that no generator drops brings them to the same phase, for ever
-/

namespace BpmSwap

open Clocked

variable {w : ℕ} {D : BitVec w}

/-- An edge at which the divider counts. -/
def FreqIn.counted (i : FreqIn w) : Bool := i.en && i.cntEn

/-- The divider registers hold the setting. -/
structure Freq.Settled (D : BitVec w) (s : Freq) : Prop where
  cnst : s.cnstSwapDivF = D.toNat - 1
  old : s.cnstSwapDivFOld = D.toNat - 1

/-- A run out of reset with a constant setting; triggers and enables are free. -/
structure Driven (inp : ℕ → FreqIn w) (D : BitVec w) : Prop where
  rstN : ∀ t, (inp t).rstN = true
  div : ∀ t, (inp t).swapDivF = D

/-! ## One edge of a settled divider -/

theorem settled_step {s : Freq} (hs : s.Settled D) {i : FreqIn w} (hr : i.rstN = true)
    (hd : i.swapDivF = D) : (freqStep s i).Settled D := by
  refine ⟨?_, ?_⟩
  · simp [freqStep, hr, hs.cnst, hs.old]
  · simp [freqStep, hr, hs.old, hd]

/-- The counter while both divider registers hold the same. -/
theorem advance_of_eq {s : Freq} (h : s.cnstSwapDivF = s.cnstSwapDivFOld) (i : FreqIn w) :
    s.advance i =
      if i.counted = false then s.phase
      else if s.phase.synchPending then ⟨0, true, false⟩
      else if s.phase.count = s.cnstSwapDivF then
        { s.phase with count := 0, clkSwap := !s.phase.clkSwap }
      else { s.phase with count := s.phase.count + 1 } := by
  cases he : i.en <;> cases hc : i.cntEn <;> simp [Freq.advance, FreqIn.counted, he, hc, h]

/-- The counter of a settled divider. -/
theorem advance_settled {s : Freq} (hs : s.Settled D) (i : FreqIn w) :
    s.advance i =
      if i.counted = false then s.phase
      else if s.phase.synchPending then ⟨0, true, false⟩
      else if s.phase.count = D.toNat - 1 then
        { s.phase with count := 0, clkSwap := !s.phase.clkSwap }
      else { s.phase with count := s.phase.count + 1 } := by
  rw [advance_of_eq (hs.cnst.trans hs.old.symm), hs.cnst]

theorem phase_step {s : Freq} {i : FreqIn w} (hr : i.rstN = true) :
    (freqStep s i).phase =
      if i.syncTrig = true ∧ ¬ s.Drops then { s.advance i with synchPending := true }
      else s.advance i := by
  simp [freqStep, hr]

/-- A trigger that is not dropped is pending after its edge. -/
theorem synchPending_of_trig {s : Freq} {i : FreqIn w} (hr : i.rstN = true)
    (ht : i.syncTrig = true) (hk : ¬ s.Drops) : (freqStep s i).phase.synchPending = true := by
  rw [phase_step hr, if_pos ⟨ht, hk⟩]

/-- It stays pending over the edges that are not counted. -/
theorem synchPending_stays {s : Freq} (hs : s.Settled D) {i : FreqIn w} (hr : i.rstN = true)
    (hc : i.counted = false) (hp : s.phase.synchPending = true) :
    (freqStep s i).phase.synchPending = true := by
  rw [phase_step hr, advance_settled hs, if_pos hc]
  split
  · rfl
  · exact hp

/-- **A counted edge serves it**: the phase starts again, with what the trigger of that same edge
leaves pending. -/
theorem phase_served {s : Freq} (hs : s.Settled D) {i : FreqIn w} (hr : i.rstN = true)
    (hc : i.counted = true) (hp : s.phase.synchPending = true) :
    (freqStep s i).phase = ⟨0, true, i.syncTrig && !decide s.Drops⟩ := by
  have ha : s.advance i = ⟨0, true, false⟩ := by simp [advance_settled hs, hc, hp]
  rw [phase_step hr, ha]
  cases i.syncTrig <;> by_cases hk : s.Drops <;> simp [hk]

/-- Generators in the same phase stay in the same phase. -/
theorem phase_step_congr {s s' : Freq} (hs : s.Settled D) (hs' : s'.Settled D)
    (h : s.phase = s'.phase) {i : FreqIn w} (hr : i.rstN = true) :
    (freqStep s i).phase = (freqStep s' i).phase := by
  have hd : s.Drops ↔ s'.Drops := by rw [Freq.Drops, Freq.Drops, h, hs.cnst, hs'.cnst]
  rw [phase_step hr, phase_step hr, advance_settled hs, advance_settled hs', h]
  simp only [hd]

/-! ## Two runs -/

section Runs

variable {inp : ℕ → FreqIn w} (h : Driven inp D)

include h

theorem settled_run {s : Freq} (hs : s.Settled D) (t : ℕ) : (run freqStep s inp t).Settled D := by
  apply run_invariant (I := fun _ s => Freq.Settled D s) hs
  intro t s hs
  exact settled_step hs (h.rstN t) (h.div t)

/-- A trigger that is not dropped is pending at the next counted edge. -/
theorem synchPending_run {s : Freq} (hs : s.Settled D) {t e : ℕ}
    (ht : (inp t).syncTrig = true) (hk : ¬ (run freqStep s inp t).Drops) (hte : t < e)
    (hfirst : ∀ x, t < x → x < e → (inp x).counted = false) :
    (run freqStep s inp e).phase.synchPending = true := by
  induction e, hte using Nat.le_induction with
  | base => exact synchPending_of_trig (h.rstN t) ht hk
  | succ e hte ih =>
    have hp := ih fun x hx hx' => hfirst x hx (by omega)
    exact synchPending_stays (settled_run h hs e) (h.rstN e) (hfirst e hte (by omega)) hp

/-- Equal phases stay equal. -/
theorem phase_run_congr {s s' : Freq} (hs : s.Settled D) (hs' : s'.Settled D) {t x : ℕ}
    (heq : (run freqStep s inp t).phase = (run freqStep s' inp t).phase) (hx : t ≤ x) :
    (run freqStep s inp x).phase = (run freqStep s' inp x).phase := by
  induction x, hx using Nat.le_induction with
  | base => exact heq
  | succ x _ ih => exact phase_step_congr (settled_run h hs x) (settled_run h hs' x) ih (h.rstN x)

/-- **A trigger brings every generator to the same phase**, where none of them drops it, and none
alone drops another one that comes with its service: from the first counted edge after it on,
count, switching clock and pending flag are equal for ever. -/
theorem sync_converges {s s' : Freq} (hs : s.Settled D) (hs' : s'.Settled D) {t e : ℕ}
    (ht : (inp t).syncTrig = true) (hte : t < e) (hcount : (inp e).counted = true)
    (hfirst : ∀ x, t < x → x < e → (inp x).counted = false)
    (hkeep : (run freqStep s inp t).phase = (run freqStep s' inp t).phase ∨
      ((¬ (run freqStep s inp t).Drops ∧ ¬ (run freqStep s' inp t).Drops) ∧
        ((inp e).syncTrig = true →
          ((run freqStep s inp e).Drops ↔ (run freqStep s' inp e).Drops)))) :
    ∀ x, e < x → (run freqStep s inp x).phase = (run freqStep s' inp x).phase := by
  intro x hx
  rcases hkeep with heq | ⟨⟨hk, hk'⟩, hagain⟩
  · exact phase_run_congr h hs hs' heq (by omega)
  -- both are pending when the first counted edge comes, and it serves both
  have hserved : (run freqStep s inp (e + 1)).phase = (run freqStep s' inp (e + 1)).phase := by
    have hp := synchPending_run h hs ht hk hte hfirst
    have hp' := synchPending_run h hs' ht hk' hte hfirst
    rw [run_succ, run_succ, phase_served (settled_run h hs e) (h.rstN e) hcount hp,
      phase_served (settled_run h hs' e) (h.rstN e) hcount hp']
    by_cases htrig : (inp e).syncTrig = true
    · simp only [hagain htrig]
    · simp [htrig]
  exact phase_run_congr h hs hs' hserved hx

end Runs

/-! ## A dropped trigger -/

/-- A divider by two that counts at every edge, with one trigger at cycle `t₀`. -/
def dividerByTwo (t₀ t : ℕ) : FreqIn 16 := ⟨true, true, decide (t = t₀), 2, true⟩

theorem dividerByTwo_driven (t₀ : ℕ) : Driven (dividerByTwo t₀) 2 := ⟨fun _ => rfl, fun _ => rfl⟩

/-- The divider by two, `k` cycles after its reset. -/
def afterReset (k : ℕ) : Freq := run freqStep Freq.reset (dividerByTwo 100) k

theorem afterReset_reachable (k : ℕ) :
    afterReset k ∈ Reachable (freqStep (w := 16)) {Freq.reset} :=
  ⟨_, rfl, dividerByTwo 100, k, rfl⟩

/-- **One generator drops the trigger, the other takes it**: one cycle apart, with a trigger at
once and a counted edge right after it, they end in opposite phases. -/
theorem dropped_trigger :
    (afterReset 2 ∈ Reachable (freqStep (w := 16)) {Freq.reset} ∧ (afterReset 2).Settled 2#16) ∧
    (afterReset 3 ∈ Reachable (freqStep (w := 16)) {Freq.reset} ∧ (afterReset 3).Settled 2#16) ∧
      (dividerByTwo 0 0).syncTrig = true ∧ (dividerByTwo 0 1).counted = true ∧
      (run freqStep (afterReset 2) (dividerByTwo 0) 2).phase = ⟨0, true, false⟩ ∧
      (run freqStep (afterReset 3) (dividerByTwo 0) 2).phase = ⟨1, false, false⟩ := by
  refine ⟨⟨afterReset_reachable 2, ?_, ?_⟩, ⟨afterReset_reachable 3, ?_, ?_⟩, ?_, ?_, ?_, ?_⟩ <;>
    decide

/-- Two generators in opposite half periods, in phase after one trigger. -/
theorem trigger_taken :
    (run freqStep (afterReset 2) (dividerByTwo 0) 7).phase =
      (run freqStep (afterReset 5) (dividerByTwo 0) 7).phase :=
  sync_converges (dividerByTwo_driven 0) (s := afterReset 2) (e := 1) ⟨by decide, by decide⟩
    ⟨by decide, by decide⟩ (t := 0) (by decide) (by decide) (by decide)
    (fun x hx hx' => by omega)
    (Or.inr ⟨⟨by decide, by decide⟩, fun h => absurd h (by decide)⟩) 7 (by decide)

end BpmSwap
