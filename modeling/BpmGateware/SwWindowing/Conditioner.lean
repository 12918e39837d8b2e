import BpmGateware.Clocked.Component
import BpmGateware.SwWindowing.Counter

/-!
# The input conditioner

`input_conditioner` drives the switch of the front end and weights the samples of the four channels
with a window, so that those at the switching do not count. The index of `counter` addresses the
table, and a multiplier for each channel takes the sample and the word of the table. Table and
multipliers are the cores `Clocked.Rom` and `Clocked.Multiplier`.

A position that the switch takes comes back from the converters some cycles later. The sample meets
the end of the table if this latency is the delay that is set, up to a whole window.

## Main definitions

* `Conditioner`, `Conditioner.step`: `input_conditioner`
* `Conditioner.switchO`, `Conditioner.p`: its outputs

## Main results

* `switch_run`: the position of the switch in each cycle
* `weighted_run`: the samples and their weights
* `window_on_switch`: the latency at which the window ends meet the switching
-/

namespace SwWindowing

open Clocked

variable {b m n r k : ℕ}

/-! ## The conditioner -/

/-- `c_mem_size` -/
def condMemSize (swInterval : ℕ) : ℕ := swInterval / 2 + 1

/-- What `input_conditioner` samples at one edge. -/
structure ConditionerIn (m : ℕ) where
  rstN : Bool
  /-- `adc_a_i` to `adc_d_i` -/
  adc : Fin 4 → BitVec m
  switchEn : Bool
  switchDelay : BitVec 16

/-- The ports of `cmp_index`. -/
def ConditionerIn.counterIn (i : ConditionerIn m) : CounterIn :=
  ⟨i.rstN, true, i.switchDelay, i.switchEn⟩

variable (C : Rom b n) (M : Multiplier m n r k)

/-- The registers of `input_conditioner`. -/
structure Conditioner where
  index : Counter b
  lut : C.State
  /-- `cmp_multiplier_a` to `cmp_multiplier_d` -/
  mult : Fin 4 → M.State

variable {C M}

namespace Conditioner

/-- `window_factor` -/
def windowFactor (s : Conditioner C M) : BitVec n := C.dout s.lut

/-- The ports of a multiplier. -/
def multIn (s : Conditioner C M) (i : ConditionerIn m) (ch : Fin 4) : MultiplierIn m n where
  rst := !i.rstN
  ce := true
  a := i.adc ch
  b := s.windowFactor
  tag := false
  valid := true

/-- **One edge of `input_conditioner`**. -/
def step (swInterval : ℕ) (s : Conditioner C M) (i : ConditionerIn m) : Conditioner C M where
  index := counterStep (condMemSize swInterval) s.index i.counterIn
  lut := C.step s.lut s.index.index
  mult ch := M.step (s.mult ch) (s.multIn i ch)

/-- `switch_o` -/
def switchO (s : Conditioner C M) : Bool := s.index.switch

/-- `a_o` to `d_o` -/
def p (s : Conditioner C M) (ch : Fin 4) : BitVec r := M.p (s.mult ch)

end Conditioner

/-! ## The triangle wave at its ends -/

theorem triangle_eq_last_iff {L x : ℕ} (hL : 0 < L) : triangle L x = L ↔ x % (2 * L) = L := by
  unfold triangle
  split_ifs with h <;> omega

/-- The ends of the halves are the ends of the table in turn. -/
theorem triangle_mul {L : ℕ} (hL : 0 < L) (q : ℕ) :
    triangle L (q * L) = if q % 2 = 1 then L else 0 := by
  have hmod : q * L % (2 * L) = q % 2 * L := Nat.mul_mod_mul_right L q 2
  rcases Nat.mod_two_eq_zero_or_one q with h | h
  · rw [triangle, hmod, h, Nat.zero_mul, if_pos (Nat.zero_le L), if_neg Nat.zero_ne_one]
  · rw [if_pos h, triangle_eq_last_iff hL, hmod, h, Nat.one_mul]

theorem triangle_add_period (L x j : ℕ) : triangle L (x + 2 * L * j) = triangle L x := by
  rw [triangle, triangle, Nat.add_mul_mod_self_left]

/-- The toggling edges, for a delay below the half. -/
theorem toggleAt_eq {L d x : ℕ} (hd : d < L) : toggleAt L d x = decide (L ∣ x + d + 1) := by
  have hx : x + d + 1 = L * (x / L) + (x % L + 1 + d) := by
    have := Nat.div_add_mod x L
    omega
  have hlt := Nat.mod_lt x (Nat.zero_lt_of_lt hd)
  unfold toggleAt
  apply decide_eq_decide.mpr
  rw [hx, Nat.dvd_add_right (Nat.dvd_mul_right L _)]
  constructor
  · intro h
    rw [h]
  · rintro ⟨j, hj⟩
    rcases Nat.lt_trichotomy j 1 with h | h | h
    · rw [Nat.lt_one_iff.mp h] at hj
      omega
    · rw [hj, h, Nat.mul_one]
    · have := Nat.mul_le_mul_left L (show 2 ≤ j from h)
      omega

/-! ## Runs -/

theorem edges_every (t : ℕ) : edges (fun _ => true) t = t := by
  induction t with
  | zero => rfl
  | succ t ih => rw [edges_succ, ih, if_pos rfl]

section Runs

variable {swInterval : ℕ} {s : Conditioner C M} {inp : ℕ → ConditionerIn m} {d : BitVec 16}

/-- The conditioner in a run. -/
abbrev condRun (swInterval : ℕ) (s : Conditioner C M) (inp : ℕ → ConditionerIn m) (t : ℕ) :
    Conditioner C M := run (Conditioner.step swInterval) s inp t

theorem index_run (t : ℕ) :
    (condRun swInterval s inp t).index = run (counterStep (condMemSize swInterval)) s.index
      (fun t => (inp t).counterIn) t :=
  run_proj (fun s : Conditioner C M => s.index) (fun _ i => i.counterIn) (fun _ _ => rfl) s inp t

/-- An edge of a counter that is switching. -/
theorem counterStep_out {memSize : ℕ} (c : Counter b) {i : CounterIn} (hi : i.Switching d)
    (hce : i.ce = true) : (counterStep memSize c i).index = (counterStep memSize c i).count ∧
      (counterStep memSize c i).switch = c.switchState := by
  unfold counterStep
  rw [if_neg (by simp [hi.rstN]), if_neg (by simp [hce]), if_neg (by simp [hi.switchEn])]
  split_ifs <;> exact ⟨rfl, rfl⟩

variable (hL : 0 < swInterval / 2) (hb : swInterval / 2 < 2 ^ b) (hd : d.toNat < swInterval / 2)
  (hs : s.index.AtReset) (hi : ∀ t, (inp t).counterIn.Switching d)

include hL hb hd hs hi

theorem index_follows (t : ℕ) :
    (condRun swInterval s inp t).index.Follows (swInterval / 2) t := by
  have hpos : 0 < lastAddress (condMemSize swInterval) := hL
  have h := follows_run hpos hb hd.le hs hi t
  rw [show (fun t => (inp t).counterIn.ce) = fun _ => true from rfl, edges_every] at h
  rw [index_run]
  exact h

/-- The address after an edge. -/
theorem address_run (t : ℕ) :
    (condRun swInterval s inp (t + 1)).index.index.toNat = triangle (swInterval / 2) (t + 1) := by
  have hcount := (index_follows hL hb hd hs hi (t + 1)).count
  rw [← hcount]
  exact congrArg BitVec.toNat (counterStep_out (condRun swInterval s inp t).index (hi t) rfl).1

/-- The toggles so far are the ends of halves passed, a delay ahead. -/
theorem switchState_run (t : ℕ) :
    (condRun swInterval s inp t).index.switchState =
      decide ((t + d.toNat) / (swInterval / 2) % 2 = 1) := by
  induction t with
  | zero =>
    rw [Nat.zero_add, Nat.div_eq_of_lt hd]
    exact hs.switchState
  | succ t ih =>
    have hpos : 0 < lastAddress (condMemSize swInterval) := hL
    have htoggle : (condRun swInterval s inp (t + 1)).index.switchState =
        ((condRun swInterval s inp t).index.switchState ^^ toggleAt (swInterval / 2) d.toNat t) :=
      (follows_step hpos hb hd.le (hi t) (index_follows hL hb hd hs hi t)).2
    rw [htoggle, ih, toggleAt_eq hd, Nat.add_right_comm t 1, Nat.succ_div]
    by_cases hdvd : swInterval / 2 ∣ t + d.toNat + 1
    · rw [if_pos hdvd, decide_eq_true hdvd, Bool.xor_true, ← decide_not]
      apply decide_eq_decide.mpr
      omega
    · rw [if_neg hdvd, decide_eq_false hdvd, Bool.xor_false, Nat.add_zero]

/-- **The position of the switch** in each cycle. -/
theorem switch_run (t : ℕ) :
    (condRun swInterval s inp (t + 1)).switchO =
      decide ((t + d.toNat) / (swInterval / 2) % 2 = 1) := by
  rw [← switchState_run hL hb hd hs hi t]
  exact (counterStep_out (condRun swInterval s inp t).index (hi t) rfl).2

/-- The edges at which the switch changes. -/
theorem changes_switch_iff (t : ℕ) :
    changes (fun t => (condRun swInterval s inp t).switchO) (t + 1) = true ↔
      swInterval / 2 ∣ t + 1 + d.toNat := by
  rw [changes_eq_true, switch_run hL hb hd hs hi, switch_run hL hb hd hs hi,
    Nat.add_right_comm t 1, Nat.succ_div]
  by_cases hdvd : swInterval / 2 ∣ t + d.toNat + 1
  · simp only [hdvd, if_true, iff_true, ne_eq, decide_eq_decide]
    omega
  · simp [hdvd]

omit hL hb hd hs in
/-- **The weight of a sample** is the word of the table at the address of the cycle before. -/
theorem weighted_run (t : ℕ) (ch : Fin 4) :
    (condRun swInterval s inp (t + 1 + k)).p ch =
      M.mul ((inp (t + 1)).adc ch) (C.table (condRun swInterval s inp t).index.index) := by
  have hmult : ∀ t, (condRun swInterval s inp t).mult ch =
      run M.step (s.mult ch) (fun t => (condRun swInterval s inp t).multIn (inp t) ch) t :=
    run_proj (fun s : Conditioner C M => s.mult ch) (fun s i => s.multIn i ch) (fun _ _ => rfl) s
      inp
  have hlut : ∀ t, (condRun swInterval s inp t).lut =
      run C.step s.lut (fun t => (condRun swInterval s inp t).index.index) t :=
    run_proj (fun s : Conditioner C M => s.lut) (fun s _ => s.index.index) (fun _ _ => rfl) s inp
  have hfactor : (condRun swInterval s inp (t + 1)).windowFactor =
      C.table (condRun swInterval s inp t).index.index := by
    rw [Conditioner.windowFactor, hlut, C.dout_run]
  rw [Conditioner.p, hmult, ← hfactor]
  refine (M.out_run (s.mult ch) _ (t + 1) ?_).1
  intro x _ _
  exact ⟨rfl, congrArg (fun y => !y) (hi x).rstN⟩

/-- **The window at the switching**. Every sample comes out `k` edges later, weighted with the word
of the table at the address of the cycle before. Where a position of the switch takes `Δ` cycles to
the converters, the address for its first sample is the end of the table that belongs to the
position, after every change of the switch, if and only if `Δ` is the delay that is set, up to whole
windows. -/
theorem window_on_switch (Δ : ℕ) :
    (∀ t ch, (condRun swInterval s inp (t + 1 + k)).p ch =
      M.mul ((inp (t + 1)).adc ch) (C.table (condRun swInterval s inp t).index.index)) ∧
    ((∀ u, changes (fun t => (condRun swInterval s inp t).switchO) (u + 1) = true →
      (condRun swInterval s inp (u + 1 + Δ)).index.index.toNat =
        if (condRun swInterval s inp (u + 2)).switchO then swInterval / 2 else 0) ↔
      Δ % (2 * (swInterval / 2)) = d.toNat) := by
  refine ⟨fun t ch => weighted_run hi t ch, ?_⟩
  have haddr : ∀ u, (condRun swInterval s inp (u + 1 + Δ)).index.index.toNat =
      triangle (swInterval / 2) (u + 1 + Δ) := by
    intro u
    rw [Nat.add_right_comm u 1]
    exact address_run hL hb hd hs hi (u + Δ)
  constructor
  · intro h
    obtain ⟨u, hu⟩ : ∃ u, u + 1 + d.toNat = swInterval / 2 :=
      ⟨swInterval / 2 - d.toNat - 1, by omega⟩
    have hchange := (changes_switch_iff hL hb hd hs hi u).mpr (by rw [hu])
    have hup : (condRun swInterval s inp (u + 2)).switchO = true := by
      rw [switch_run hL hb hd hs hi (u + 1), hu, Nat.div_self hL]
      rfl
    have hend := h u hchange
    have hlt := Nat.mod_lt Δ (show 0 < 2 * (swInterval / 2) by omega)
    rw [haddr, hup, if_pos rfl, triangle_eq_last_iff hL, Nat.add_mod_eq_ite,
      Nat.mod_eq_of_lt (show u + 1 < 2 * (swInterval / 2) by omega)] at hend
    split_ifs at hend <;> omega
  · intro hΔ u hchange
    obtain ⟨q, hq⟩ := (changes_switch_iff hL hb hd hs hi u).mp hchange
    have hsum : u + 1 + Δ =
        q * (swInterval / 2) + 2 * (swInterval / 2) * (Δ / (2 * (swInterval / 2))) := by
      have := Nat.div_add_mod Δ (2 * (swInterval / 2))
      rw [Nat.mul_comm q]
      omega
    rw [haddr, hsum, triangle_add_period, triangle_mul hL, switch_run hL hb hd hs hi (u + 1), hq,
      Nat.mul_div_cancel_left q hL]
    simp

end Runs

/-- Switching with the delay `d`. -/
def steadyCond (d : BitVec 16) (_ : ℕ) : ConditionerIn 16 := ⟨true, fun _ => 0, true, d⟩

/-- A conditioner at power-up, with a multiplier of one register. -/
def condPowerUp : Conditioner (Rom.registered fun a : BitVec 2 => a)
    (Multiplier.registered fun (x : BitVec 16) (_ : BitVec 2) => x) :=
  ⟨powerUp 2, (0 : BitVec 2), fun _ => (⟨false, true, 0, 0, false, true⟩ : MultiplierIn 16 2)⟩

/-- An interval of six, and a delay and a latency of one: the first change of the switch meets the
last address. -/
theorem steadyCond_end : (condRun 6 condPowerUp (steadyCond 1) 3).index.index.toNat = 3 :=
  ((window_on_switch (by decide) (by decide) (by decide) (powerUp_atReset 2)
    (fun _ => ⟨rfl, rfl, rfl⟩) 1).2.mpr (by decide) 1 (by decide)).trans (by decide)

end SwWindowing
