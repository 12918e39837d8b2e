import BpmGateware.Clocked.Hold
import BpmGateware.Mixer.Basic

/-!
# Samples and points

The sample, its tag, its valid and its point reach the multipliers on four different ways, all two
cycles long. So the `k`-th valid sample after a reset meets point `k` modulo `N`, whatever the
pattern of valids. The reset puts the index to the last point, so that the first valid sample after
it finds point `0`; it leaves the address, which is not looked at while the sweep is not valid.

## Main definitions

* `sinceReset inp t`: the valid samples before cycle `t`, since the last reset
* `Input.gated`: a sample counts in an enabled cycle only
* `State.Pairs`: the operands of the multipliers are a sample and a point

## Main results

* `vSampleIdx_run`: the index of the sweep in a whole run
* `mixer_pairs`: which sample meets which point
-/

namespace Mixer

open Clocked

variable {b c w r l N : ℕ} {P : Parts b c w r l}

/-! ## Counting the valid samples -/

/-- The valid samples presented before cycle `t`, since the last reset before it. -/
def sinceReset (inp : ℕ → Input c) (t : ℕ) : ℕ :=
  (strobes (fun x => (inp x).valid)
    ((latest (fun x => (inp x).rst) t).elim 0 fun x => x + 1) t).card

theorem sinceReset_zero (inp : ℕ → Input c) : sinceReset inp 0 = 0 := card_strobes_self

theorem sinceReset_of_rst {inp : ℕ → Input c} {t : ℕ} (hr : (inp t).rst = true) :
    sinceReset inp (t + 1) = 0 := by
  rw [sinceReset, latest_succ, if_pos hr, Option.elim_some, card_strobes_self]

theorem sinceReset_succ {inp : ℕ → Input c} {t : ℕ} (hr : (inp t).rst = false) :
    sinceReset inp (t + 1) = sinceReset inp t + if (inp t).valid then 1 else 0 := by
  rw [sinceReset, sinceReset, latest_succ, if_neg (by simp [hr])]
  apply card_strobes_succ
  cases hl : latest (fun x => (inp x).rst) t with
  | none => exact Nat.zero_le t
  | some u => exact (latest_eq_some_iff.mp hl).1

/-! ## The sweep -/

theorem nextIdx_mod {k : ℕ} (hN : 0 < N) (valid : Bool) :
    nextIdx N ((k + (N - 1)) % N) valid = (k + (if valid then 1 else 0) + (N - 1)) % N := by
  cases valid with
  | false => simp [nextIdx]
  | true =>
    have hlt := Nat.mod_lt (k + (N - 1)) hN
    have hsucc : (k + 1 + (N - 1)) % N = ((k + (N - 1)) % N + 1) % N := by
      rw [Nat.mod_add_mod]
      congr 1
      omega
    simp only [nextIdx, if_true]
    rw [hsucc]
    by_cases hlast : (k + (N - 1)) % N = N - 1
    · rw [if_pos hlast, hlast, Nat.sub_add_cancel hN, Nat.mod_self]
    · have hbelow : (k + (N - 1)) % N + 1 < N := by omega
      rw [if_neg hlast, Nat.mod_eq_of_lt hbelow]

/-! ### Under any enables -/

/-- A sample counts in an enabled cycle only. -/
def Input.gated (i : Input c) : Input c := { i with valid := i.valid && i.ce }

section Enabled

variable {s : State P} {inp : ℕ → Input c}

theorem sweep_of_rst {t : ℕ} (hr : (inp t).rst = true) :
    (run (step N) s inp (t + 1)).dds.sweep =
      { (run (step N) s inp t).dds.sweep with vSampleIdx := N - 1, valid := false } := by
  rw [run_succ]
  simp only [step, fixedDdsStep, lutSweepStep, if_pos hr]

theorem sweep_of_ce {t : ℕ} (hr : (inp t).rst = false) (hce : (inp t).ce = true) :
    (run (step N) s inp (t + 1)).dds.sweep =
      { vSampleIdx := nextIdx N (run (step N) s inp t).dds.sweep.vSampleIdx (inp t).valid
        address := BitVec.ofNat b
          (nextIdx N (run (step N) s inp t).dds.sweep.vSampleIdx (inp t).valid)
        valid := (inp t).valid } := by
  rw [run_succ]
  simp only [step, fixedDdsStep, lutSweepStep, hr, if_pos hce, Bool.false_eq_true, if_false]

theorem sweep_of_not_ce {t : ℕ} (hr : (inp t).rst = false) (hce : (inp t).ce = false) :
    (run (step N) s inp (t + 1)).dds.sweep = (run (step N) s inp t).dds.sweep := by
  rw [run_succ]
  simp only [step, fixedDdsStep, lutSweepStep, hr, hce, Bool.false_eq_true, if_false]

theorem gated_of_rst {t : ℕ} (hr : (inp t).rst = true) :
    sinceReset (fun y => (inp y).gated) (t + 1) = 0 :=
  sinceReset_of_rst hr

theorem gated_succ {t : ℕ} (hr : (inp t).rst = false) :
    sinceReset (fun y => (inp y).gated) (t + 1) =
      sinceReset (fun y => (inp y).gated) t + if (inp t).valid && (inp t).ce then 1 else 0 :=
  sinceReset_succ hr

/-- **The index of the sweep** under any enables: it counts the samples of the enabled cycles. -/
theorem vSampleIdx_gated (hs : s.dds.sweep.vSampleIdx + 1 = N) (t : ℕ) :
    (run (step N) s inp t).dds.sweep.vSampleIdx =
      (sinceReset (fun y => (inp y).gated) t + (N - 1)) % N := by
  induction t with
  | zero =>
    rw [sinceReset_zero, Nat.zero_add, Nat.mod_eq_of_lt (by omega), run_zero]
    omega
  | succ t ih =>
    cases hr : (inp t).rst with
    | true => rw [sweep_of_rst hr, gated_of_rst hr, Nat.zero_add, Nat.mod_eq_of_lt (by omega)]
    | false =>
      rw [gated_succ hr]
      cases hce : (inp t).ce with
      | true => rw [sweep_of_ce hr hce, ih, nextIdx_mod (by omega), Bool.and_true]
      | false => simp [sweep_of_not_ce hr hce, ih]

end Enabled

/-! ### Enabled in every cycle -/

section Sweep

variable {s : State P} {inp : ℕ → Input c} (hce : ∀ t, (inp t).ce = true)

include hce

theorem sweep_run (t : ℕ) :
    (run (step N) s inp (t + 1)).dds.sweep =
      if (inp t).rst then
        { (run (step N) s inp t).dds.sweep with vSampleIdx := N - 1, valid := false }
      else
        { vSampleIdx := nextIdx N (run (step N) s inp t).dds.sweep.vSampleIdx (inp t).valid
          address := BitVec.ofNat b
            (nextIdx N (run (step N) s inp t).dds.sweep.vSampleIdx (inp t).valid)
          valid := (inp t).valid } := by
  cases hr : (inp t).rst with
  | true => rw [sweep_of_rst hr, if_pos rfl]
  | false => rw [sweep_of_ce hr (hce t), if_neg Bool.false_ne_true]

/-- **The index of the sweep**: it follows the count of the valid samples, one point behind. -/
theorem vSampleIdx_run (hs : s.dds.sweep.vSampleIdx + 1 = N) (t : ℕ) :
    (run (step N) s inp t).dds.sweep.vSampleIdx = (sinceReset inp t + (N - 1)) % N := by
  have hgated : (fun y => (inp y).gated) = inp := by
    funext y
    have hvalid : ((inp y).valid && (inp y).ce) = (inp y).valid := by rw [hce, Bool.and_true]
    rw [Input.gated, hvalid]
  have hidx : (run (step N) s inp t).dds.sweep.vSampleIdx = _ := vSampleIdx_gated hs t
  rwa [hgated] at hidx

theorem sweepValid_run (t : ℕ) :
    (run (step N) s inp (t + 1)).dds.sweep.valid = ((inp t).valid && !(inp t).rst) := by
  rw [sweep_run hce]
  cases (inp t).rst <;> simp

/-- Out of reset the address is the index of the same edge. -/
theorem address_run {t : ℕ} (hr : (inp t).rst = false) :
    (run (step N) s inp (t + 1)).dds.sweep.address =
      BitVec.ofNat b (run (step N) s inp (t + 1)).dds.sweep.vSampleIdx := by
  rw [sweep_run hce, if_neg (by simp [hr])]

/-- **The point of a valid sample**: the number of valid samples before it, modulo `N`. -/
theorem address_of_valid (hs : s.dds.sweep.vSampleIdx + 1 = N) {t : ℕ}
    (hr : (inp t).rst = false) (hv : (inp t).valid = true) :
    (run (step N) s inp (t + 1)).dds.sweep.address = BitVec.ofNat b (sinceReset inp t % N) := by
  rw [address_run hce hr, vSampleIdx_run hce hs, sinceReset_succ hr, if_pos hv,
    show sinceReset inp t + 1 + (N - 1) = sinceReset inp t + N by omega, Nat.add_mod_right]

/-- **The address stays among the points** from the first edge out of reset on, and before it if it
was there. -/
theorem address_lt (hs : s.dds.sweep.vSampleIdx + 1 = N) (t : ℕ)
    (h : s.dds.sweep.address.toNat < N ∨ ∃ x < t, (inp x).rst = false) :
    (run (step N) s inp t).dds.sweep.address.toNat < N := by
  induction t with
  | zero => exact h.resolve_right (by rintro ⟨x, hx, -⟩; omega)
  | succ t ih =>
    cases hr : (inp t).rst with
    | true =>
      rw [sweep_run hce, if_pos hr]
      refine ih (h.imp id ?_)
      rintro ⟨x, hx, hxr⟩
      have hne : x ≠ t := by rintro rfl; simp [hr] at hxr
      exact ⟨x, by omega, hxr⟩
    | false =>
      rw [address_run hce hr, BitVec.toNat_ofNat, vSampleIdx_run hce hs]
      exact lt_of_le_of_lt (Nat.mod_le _ _) (Nat.mod_lt _ (by omega))

end Sweep

/-! ## The four ways -/

section Ways

variable (s : State P) {inp : ℕ → Input c}

theorem cos_run (t : ℕ) :
    (run (step N) s inp (t + 1)).cos =
      P.cosLut.table (run (step N) s inp t).dds.sweep.address := by
  rw [State.cos, run_proj (fun s : State P => s.dds.cosLut) (fun s _ => s.dds.sweep.address)
    (fun _ _ => rfl), P.cosLut.dout_run]

theorem sin_run (t : ℕ) :
    (run (step N) s inp (t + 1)).sin =
      P.sinLut.table (run (step N) s inp t).dds.sweep.address := by
  rw [State.sin, run_proj (fun s : State P => s.dds.sinLut) (fun s _ => s.dds.sweep.address)
    (fun _ _ => rfl), P.sinLut.dout_run]

variable (hce : ∀ t, (inp t).ce = true)

include hce

theorem fixedDdsValid_run (t : ℕ) :
    (run (step N) s inp (t + 2)).fixedDdsValid = ((inp t).valid && !(inp t).rst) := by
  rw [State.fixedDdsValid, run_proj (fun s : State P => s.dds.pipeValid)
    (fun s (i : Input c) => (⟨i.ce, s.dds.sweep.valid⟩ : PipeIn Bool)) (fun _ _ => rfl),
    P.pipeValid.q_run _ _ (t + 1) (fun x _ _ => hce x), sweepValid_run hce]

theorem fixedDdsTag_run (t : ℕ) :
    (run (step N) s inp (t + 2)).fixedDdsTag = (inp t).tag := by
  rw [State.fixedDdsTag, run_proj (fun s : State P => s.dds.pipeTag)
    (fun _ (i : Input c) => (⟨i.ce, i.tag⟩ : PipeIn Bool)) (fun _ _ => rfl),
    P.pipeTag.q_run _ _ t (fun x _ _ => hce x)]

theorem signalD2_run (t : ℕ) :
    (run (step N) s inp (t + 2)).signalD2 = (inp t).signal := by
  rw [State.signalD2, run_proj (fun s : State P => s.pipeSignal)
    (fun _ (i : Input c) => (⟨i.ce, i.signal⟩ : PipeIn (BitVec c))) (fun _ _ => rfl),
    P.pipeSignal.q_run _ _ t (fun x _ _ => hce x)]

/-- What the multipliers show `l` cycles after the operands they were given. -/
theorem mult_run {t : ℕ} (hr : ∀ x, t ≤ x → x < t + l → (inp x).rst = false) :
    ((run (step N) s inp (t + l)).iO =
        P.mult.mul (run (step N) s inp t).signalD2 (run (step N) s inp t).cos ∧
      (run (step N) s inp (t + l)).iTagO = (run (step N) s inp t).fixedDdsTag ∧
      (run (step N) s inp (t + l)).validO = (run (step N) s inp t).fixedDdsValid) ∧
    (run (step N) s inp (t + l)).qO =
        P.mult.mul (run (step N) s inp t).signalD2 (run (step N) s inp t).sin ∧
      (run (step N) s inp (t + l)).qTagO = (run (step N) s inp t).fixedDdsTag := by
  have hI : ∀ t, (run (step N) s inp t).multI = run P.mult.step s.multI
      (fun t => (run (step N) s inp t).multIIn (inp t)) t :=
    run_proj (fun s : State P => s.multI) (fun s i => s.multIIn i) (fun _ _ => rfl) s inp
  have hQ : ∀ t, (run (step N) s inp t).multQ = run P.mult.step s.multQ
      (fun t => (run (step N) s inp t).multQIn (inp t)) t :=
    run_proj (fun s : State P => s.multQ) (fun s i => s.multQIn i) (fun _ _ => rfl) s inp
  have hon : ∀ x, t ≤ x → x < t + l → (inp x).ce = true ∧ (inp x).rst = false :=
    fun x hx hx' => ⟨hce x, hr x hx hx'⟩
  rw [State.iO, State.iTagO, State.validO, State.qO, State.qTagO, hI, hQ]
  obtain ⟨hp, ht, -⟩ := P.mult.out_run s.multQ
    (fun t => (run (step N) s inp t).multQIn (inp t)) t hon
  exact ⟨P.mult.out_run s.multI (fun t => (run (step N) s inp t).multIIn (inp t)) t hon, hp, ht⟩

end Ways

/-! ## Samples and points -/

/-- The operands of the multipliers are the sample of an input, with its tag, and the cosine and the
sine of a point. -/
structure State.Pairs (s : State P) (i : Input c) (point : BitVec b) : Prop where
  signal : s.signalD2 = i.signal
  tag : s.fixedDdsTag = i.tag
  cos : s.cos = P.cosLut.table point
  sin : s.sin = P.sinLut.table point

/-- The outputs are the products of a sample with the cosine and the sine of a point. -/
structure State.Mixed (s : State P) (i : Input c) (point : BitVec b) : Prop where
  valid : s.validO = true
  iO : s.iO = P.mult.mul i.signal (P.cosLut.table point)
  qO : s.qO = P.mult.mul i.signal (P.sinLut.table point)
  iTag : s.iTagO = i.tag
  qTag : s.qTagO = i.tag

/-- **Which sample meets which point**. From power-up, or from a reset, and enabled in every cycle:
the samples that are valid out of reset, and no others, are at the multipliers two cycles later,
each with its own tag and with the point numbered by the valid samples before it since the last
reset, modulo `N`; and the address stays among the points. -/
theorem mixer_pairs (hN : N ≤ 2 ^ b) (s : State P) (hs : s.dds.sweep.vSampleIdx + 1 = N)
    (inp : ℕ → Input c) (hce : ∀ t, (inp t).ce = true) :
    (∀ t, (run (step N) s inp (t + 2)).fixedDdsValid = true ↔
      (inp t).valid = true ∧ (inp t).rst = false) ∧
    (∀ t, (run (step N) s inp (t + 2)).fixedDdsValid = true → ∃ point : BitVec b,
      point.toNat = sinceReset inp t % N ∧ (run (step N) s inp (t + 2)).Pairs (inp t) point ∧
      ((∀ x, t + 2 ≤ x → x < t + 2 + l → (inp x).rst = false) →
        (run (step N) s inp (t + 2 + l)).Mixed (inp t) point)) ∧
    ∀ t, (s.dds.sweep.address.toNat < N ∨ ∃ x < t, (inp x).rst = false) →
      (run (step N) s inp t).dds.sweep.address.toNat < N := by
  have hvalid : ∀ t, (run (step N) s inp (t + 2)).fixedDdsValid = true ↔
      (inp t).valid = true ∧ (inp t).rst = false := by
    intro t
    rw [fixedDdsValid_run s hce]
    simp
  refine ⟨hvalid, ?_, address_lt hce hs⟩
  intro t ht
  obtain ⟨hv, hr⟩ := (hvalid t).mp ht
  have haddr := address_of_valid hce hs hr hv
  have hpoint : sinceReset inp t % N < 2 ^ b := lt_of_lt_of_le (Nat.mod_lt _ (by omega)) hN
  have hpairs : (run (step N) s inp (t + 2)).Pairs (inp t)
      (BitVec.ofNat b (sinceReset inp t % N)) := by
    refine ⟨signalD2_run s hce t, fixedDdsTag_run s hce t, ?_, ?_⟩
    · rw [cos_run, haddr]
    · rw [sin_run, haddr]
  refine ⟨_, ?_, hpairs, ?_⟩
  · rw [BitVec.toNat_ofNat, Nat.mod_eq_of_lt hpoint]
  · intro hquiet
    obtain ⟨⟨hi, hitag, hivalid⟩, hq, hqtag⟩ := mult_run s hce hquiet
    rw [hpairs.signal, hpairs.cos] at hi
    rw [hpairs.signal, hpairs.sin] at hq
    rw [hpairs.tag] at hitag hqtag
    exact ⟨hivalid.trans ht, hi, hq, hitag, hqtag⟩

/-- The cores of a mixer over two points. -/
def twoPoints : Parts 1 8 8 8 1 where
  sinLut := Rom.registered fun a => if a = 0 then 0 else 1
  cosLut := Rom.registered fun a => if a = 0 then 1 else 0
  pipeValid := Pipe.one Bool
  pipeTag := Pipe.two Bool
  pipeSignal := Pipe.two (BitVec 8)
  mult := Multiplier.registered fun x y => x * y

/-- The mixer at power-up. -/
def fresh : State twoPoints where
  dds := ⟨⟨1, 0, false⟩, (0 : BitVec 8), (0 : BitVec 8), false, (false, false)⟩
  pipeSignal := ((0 : BitVec 8), (0 : BitVec 8))
  multI := (⟨false, false, 0, 0, false, false⟩ : MultiplierIn 8 8)
  multQ := (⟨false, false, 0, 0, false, false⟩ : MultiplierIn 8 8)

/-- A valid sample in every second cycle, and a reset at cycle `2`. -/
def everySecond (t : ℕ) : Input 8 where
  rst := decide (t = 2)
  ce := true
  valid := decide (t % 2 = 0)
  tag := false
  signal := BitVec.ofNat 8 t

/-- The second sample after the reset meets the second point. -/
theorem everySecond_pairs : ∃ point : BitVec 1, point.toNat = 1 ∧
    (run (step 2) fresh everySecond 8).Pairs (everySecond 6) point := by
  have h := mixer_pairs (by decide) fresh rfl everySecond fun _ => rfl
  obtain ⟨point, hpoint, hpairs, -⟩ := h.2.1 6 ((h.1 6).mpr ⟨by decide, by decide⟩)
  exact ⟨point, hpoint.trans (by decide), hpairs⟩

end Mixer
