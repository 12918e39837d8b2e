import BpmGateware.OrbitIntlk.Access
import BpmGateware.OrbitIntlk.Latch

/-!
# The interlock behind its registers

`wb_orbit_intlk`: the register bank on the bus clock, `orbit_intlk` on `ref_clk_i`, which is also
the `fs_clk_i` of the bank. The enables and the clears leave the bank as they are, the limits
through their crossings; the flags and the detector values go back to it. `wb_slave_adapter` is in
front of the bank; the bus signals here are those behind it.

A trip is latched in one clock domain and read and cleared from the other one. Over any run of the
two clocks the latch is an exact history of the trips since the last clear that software wrote,
what software reads is the latch, and a clear has acted by the time its write is accepted.

## Main definitions

* `WbOrbitIntlk`, `WbOrbitIntlk.tick`: the two parts and their wires
* `Cleared`: the edges of `ref_clk_i` in the pulse of a clear that software wrote

## Main results

* `flag_history`: a latched flag is a history of its detections and of the clears written
* `status_read`: a status read returns the flags of the tick at which it was taken up
* `trip_reported`: a trip is in every status read up to the next clear
* `clear_effective`: a clear write that is accepted has cleared its flags
-/

namespace OrbitIntlk

open Clocked

variable (A : GcBigAdder2 32)

/-- The state of `wb_orbit_intlk`. -/
structure WbOrbitIntlk where
  regs : Regs
  core : State A

/-- The inputs at a tick: the edges of the two clocks, their resets, the bus, the samples of the
`ref_clk_i` domain, and what nothing drives. -/
structure WbIn where
  sys : Bool
  ref : Bool
  rstN : Bool
  refRstN : Bool
  bus : Bus 4
  ctrlReserved : BitVec 24
  undefined : Bool
  stsReserved : Bool
  ds : Sample 32
  us : Sample 32
  dsValid : Bool
  usValid : Bool

variable {A}

/-- The detector values: `intlk_trans_x_diff_o` and its siblings. -/
def State.diff (s : State A) : Diff → BitVec 32
  | .transX => (s.trans .x).trans
  | .transY => (s.trans .y).trans
  | .angX => (s.ang .x).sum.sumReg
  | .angY => (s.ang .y).sum.sumReg

/-- The settings at the ports of `orbit_intlk`. -/
def Regs.config (s : Regs) : Config 32 where
  intlkEn := s.ctrlEn
  minSumEn := s.ctrlMinSumEn
  minSum := (s.limit .minSum).out
  transEn := s.ctrlTransEn
  transMax
    | .x => (s.limit .transMaxX).out
    | .y => (s.limit .transMaxY).out
  transMin
    | .x => (s.limit .transMinX).out
    | .y => (s.limit .transMinY).out
  angEn := s.ctrlAngEn
  angMax
    | .x => (s.limit .angMaxX).out
    | .y => (s.limit .angMaxY).out
  angMin
    | .x => (s.limit .angMinX).out
    | .y => (s.limit .angMinY).out

namespace WbOrbitIntlk

/-- The inputs of the bank. -/
def regsIn (s : WbOrbitIntlk A) (i : WbIn) : RegsIn where
  sys := i.sys
  fs := i.ref
  rstN := i.rstN
  bus := i.bus
  ctrlReserved := i.ctrlReserved
  undefined := i.undefined
  sts := s.core.flags
  stsReserved := i.stsReserved
  diff := s.core.diff

/-- The inputs of `orbit_intlk`. -/
def coreIn (s : WbOrbitIntlk A) (i : WbIn) : Input 32 where
  rstN := i.refRstN
  cfg := s.regs.config
  clr := s.regs.ctrlClr.out
  transClr := s.regs.ctrlTransClr.out
  angClr := s.regs.ctrlAngClr.out
  ds := i.ds
  us := i.us
  dsValid := i.dsValid
  usValid := i.usValid

/-- **One tick of `wb_orbit_intlk`**. -/
def tick (s : WbOrbitIntlk A) (i : WbIn) : WbOrbitIntlk A where
  regs := s.regs.tick (s.regsIn i)
  core := if i.ref then step s.core (s.coreIn i) else s.core

/-- The bank in reset, the interlock in the state `c`. -/
def start (c : State A) : WbOrbitIntlk A := ⟨.reset, c⟩

end WbOrbitIntlk

/-! ## The two parts in a run -/

section Runs

variable (c : State A) (inp : ℕ → WbIn)

/-- The system from reset on. -/
abbrev wbRun (t : ℕ) : WbOrbitIntlk A := run WbOrbitIntlk.tick (.start c) inp t

/-- What the bank sees along the run. -/
abbrev wbRegsIn (t : ℕ) : RegsIn := (wbRun c inp t).regsIn (inp t)

theorem wbRun_regs (t : ℕ) : (wbRun c inp t).regs = regsRun (wbRegsIn c inp) t :=
  run_proj WbOrbitIntlk.regs WbOrbitIntlk.regsIn (fun _ _ => rfl) _ inp t

theorem wbRun_core_succ (t : ℕ) :
    (wbRun c inp (t + 1)).core =
      if (inp t).ref then step (wbRun c inp t).core ((wbRun c inp t).coreIn (inp t))
      else (wbRun c inp t).core := rfl

end Runs

/-! ## The latched flags -/

/-- A latched flag: the general one, or one of the eight. -/
inductive Flag
  | general
  | axis (d : Detector) (a : Axis) (k : Side)
  deriving DecidableEq, Repr

/-- The clear of a flag. -/
def Flag.clear : Flag → Clear
  | .general => .all
  | .axis .trans _ _ => .trans
  | .axis .ang _ _ => .ang

/-- The register of a flag. -/
def State.flag (s : State A) : Flag → Bool
  | .general => s.intlkLtc
  | .axis d a k => s.latched d a k

/-- The edges that set a flag. -/
def State.flagSets (s : State A) (i : Input 32) : Flag → Bool
  | .general => s.intlkAll i
  | .axis d a k => s.sets d a k

/-- The place of a flag in the status word. -/
def Flag.bit : Flag → ℕ
  | .general => 15
  | .axis .trans .x .bigger => 2
  | .axis .trans .y .bigger => 3
  | .axis .ang .x .bigger => 9
  | .axis .ang .y .bigger => 10
  | .axis .trans .x .smaller => 18
  | .axis .trans .y .smaller => 19
  | .axis .ang .x .smaller => 25
  | .axis .ang .y .smaller => 26

theorem stsWord_flag (s : State A) (res : Bool) (f : Flag) :
    (stsWord s.flags res).getLsbD f.bit = s.flag f := by
  unfold stsWord
  rw [BitVec.getLsbD_ofBoolListLE]
  rcases f with _ | ⟨d, a, k⟩
  · rfl
  · cases d <;> cases a <;> cases k <;> rfl

/-- The clear inputs of `orbit_intlk`. -/
def Input.clear (i : Input 32) : Clear → Bool
  | .all => i.clr
  | .trans => i.transClr
  | .ang => i.angClr

/-- **One edge of a latched flag**, the general one included. -/
theorem flag_step (s : State A) (i : Input 32) (f : Flag) :
    (step s i).flag f = ltcNext i.rstN (i.clear f.clear) (s.flagSets i f) (s.flag f) := by
  rcases f with _ | ⟨d, a, k⟩
  · rfl
  · cases d <;> exact latched_step s i _ a k

theorem coreIn_clear (s : WbOrbitIntlk A) (i : WbIn) (k : Clear) :
    (s.coreIn i).clear k = (s.regs.clear k).out := by
  cases k <;> rfl

/-- Both clocks at every tick, and one pair of samples. -/
def wbScript (f : ℕ → Option Access) (t : ℕ) : WbIn where
  sys := true
  ref := true
  rstN := true
  refRstN := true
  bus := .ofReq (f t)
  ctrlReserved := 0
  undefined := false
  stsReserved := false
  ds := ⟨0, 0, 0, 0⟩
  us := ⟨0, 0, 0, 0⟩
  dsValid := decide (t = 6)
  usValid := decide (t = 6)

/-- Software enables the translation detector, reads the status after a trip, and clears it. -/
def tripScript (t : ℕ) : Option Access :=
  if t < 4 then some ⟨true, 0, 9⟩
  else if t < 20 then none
  else if t < 22 then some ⟨false, 1, 0⟩
  else if t < 26 then some ⟨true, 0, 11⟩
  else none

/-- The interlock of the script at power-up. -/
abbrev scriptCore : State (Adder.twoStage 32) := State.powerUp idleAdder

theorem scriptCore_flag (f : Flag) : scriptCore.flag f = false := by
  have h := powerUp_flagsDown (A := Adder.twoStage 32) idleAdder
  rcases f with _ | ⟨d, a, k⟩
  · exact h.intlkLtc
  · exact h.latched d a k

theorem tripScript_keeps : Keeps (wbRegsIn scriptCore (wbScript tripScript)) := by
  rw [keeps_iff]
  apply patient_of_finite (m := 26)
  · intro t ht
    have hnone : tripScript t = none := by
      unfold tripScript
      rw [if_neg (by omega), if_neg (by omega), if_neg (by omega), if_neg (by omega)]
    exact (Bus.req_ofReq (tripScript t)).trans hnone
  · decide +kernel

/-! ## Trips, reads and clears -/

section Trips

variable {c : State A} {inp : ℕ → WbIn}

/-- Tick `y` is in the pulse of a clear that software wrote: between the first and the second edge
of the bus clock after it. -/
def Cleared (c : State A) (inp : ℕ → WbIn) (k : Clear) (y : ℕ) : Prop :=
  ∃ u r, accessTaken (wbRegsIn c inp) u = some r ∧ writes .ctrl r = true ∧
    r.dat.getLsbD k.bit = true ∧ u < y ∧ (strobes (fun t => (inp t).sys) (u + 1) y).card = 1

variable (hrst : ∀ t, (inp t).rstN = true)

include hrst

/-- The clear of a flag is up exactly in the pulses that software wrote. -/
theorem clear_iff (k : Clear) (y : ℕ) :
    ((wbRun c inp y).coreIn (inp y)).clear k = true ↔ Cleared c inp k y := by
  rw [coreIn_clear, wbRun_regs]
  exact @clear_pulses (wbRegsIn c inp) hrst y k

/-- **A latched flag is an exact history**: it is up when an edge of `ref_clk_i` has set it and no
such edge since has met a clear that software wrote. -/
theorem flag_history (href : ∀ t, (inp t).refRstN = true) {f : Flag} (hc : c.flag f = false)
    (t : ℕ) :
    (wbRun c inp t).core.flag f = true ↔ ∃ e, e < t ∧ (inp e).ref = true ∧
      (wbRun c inp e).core.flagSets ((wbRun c inp e).coreIn (inp e)) f = true ∧
      ∀ y, e ≤ y → y < t → (inp y).ref = true → ¬ Cleared c inp f.clear y := by
  have hstep : ∀ t, 0 ≤ t → (wbRun c inp (t + 1)).core.flag f =
      if (inp t).ref && ((wbRun c inp t).coreIn (inp t)).clear f.clear then false
      else if (inp t).ref &&
        (wbRun c inp t).core.flagSets ((wbRun c inp t).coreIn (inp t)) f then true
      else (wbRun c inp t).core.flag f := by
    intro t _
    rw [wbRun_core_succ]
    by_cases hr : (inp t).ref = true
    · rw [if_pos hr, flag_step]
      simp only [hr, Bool.true_and]
      rw [show ((wbRun c inp t).coreIn (inp t)).rstN = true from href t, ltcNext_true]
    · simp [hr]
  rw [latch_eq_true_iff (l := fun t => (wbRun c inp t).core.flag f) hstep hc (Nat.zero_le t)]
  simp only [Nat.zero_le, true_and, LatchedAt, Bool.and_eq_true, ← clear_iff hrst]
  refine exists_congr fun e => and_congr_right fun _ => ?_
  rw [and_assoc]
  refine and_congr_right fun _ => and_congr_right fun _ => ?_
  refine forall_congr' fun y => forall_congr' fun _ => forall_congr' fun _ => ?_
  cases (inp y).ref <;> simp

omit hrst in
/-- Software clears nothing before it has read the status. -/
theorem tripScript_notCleared {y : ℕ} (hy : y < 20) :
    ¬ Cleared scriptCore (wbScript tripScript) .all y := by
  have hno : ∀ y < 20, ((wbRun scriptCore (wbScript tripScript) y).coreIn
      (wbScript tripScript y)).clear .all = false := by decide +kernel
  rw [← clear_iff (fun _ => rfl), Bool.not_eq_true]
  exact hno y hy

omit hrst in
/-- The pair of the script trips the interlock at tick `14`. -/
theorem tripScript_flag : (wbRun scriptCore (wbScript tripScript) 20).core.intlkLtc = true := by
  apply (@flag_history _ scriptCore (wbScript tripScript) (fun _ => rfl)
    (fun _ => rfl) .general (scriptCore_flag .general) 20).mpr
  refine ⟨14, by omega, rfl, by decide +kernel, ?_⟩
  exact fun y _ hy _ => tripScript_notCleared hy

variable {t : ℕ} {r : Access}

/-- **A status read returns the flags of the tick at which it was taken up**. -/
theorem status_read (hk : Keeps (wbRegsIn c inp))
    (hdone : accessDone (wbRegsIn c inp) t = some r) (hsts : decode r.adr = .sts) :
    ∃ u, accessTaken (wbRegsIn c inp) u = some r ∧ u < t ∧
      (strobes (fun t => (inp t).sys) (u + 1) t).card = 0 ∧
      (wbRun c inp t).regs.rddata = stsWord (wbRun c inp u).core.flags (inp u).stsReserved := by
  obtain ⟨u, hu, hut, hcard, -, -, hword⟩ := @access_answer (wbRegsIn c inp) hrst t r hk hdone
  refine ⟨u, hu, hut, ?_, ?_⟩
  · rw [latency, hsts] at hcard
    exact hcard
  · rw [wbRun_regs, hword hsts]
    rfl

/-- **A trip is in every status read up to the clear that software writes**, and in no other one:
bit by bit, an accepted status read tells whether the flag was set since its last clear. -/
theorem trip_reported (href : ∀ t, (inp t).refRstN = true) (hc : ∀ f, c.flag f = false)
    (hk : Keeps (wbRegsIn c inp)) (hdone : accessDone (wbRegsIn c inp) t = some r)
    (hsts : decode r.adr = .sts) :
    ∃ u, accessTaken (wbRegsIn c inp) u = some r ∧ u < t ∧
      (strobes (fun t => (inp t).sys) (u + 1) t).card = 0 ∧ ∀ f : Flag,
      ((wbRun c inp t).regs.rddata.getLsbD f.bit = true ↔ ∃ e, e < u ∧ (inp e).ref = true ∧
        (wbRun c inp e).core.flagSets ((wbRun c inp e).coreIn (inp e)) f = true ∧
        ∀ y, e ≤ y → y < u → (inp y).ref = true → ¬ Cleared c inp f.clear y) := by
  obtain ⟨u, hu, hut, hcard, hword⟩ := status_read hrst hk hdone hsts
  refine ⟨u, hu, hut, hcard, fun f => ?_⟩
  rw [hword, stsWord_flag, flag_history hrst href (hc f)]

omit hrst in
/-- The first status read of the script tells of the trip. -/
theorem tripScript_reported :
    (wbRun scriptCore (wbScript tripScript) 21).regs.rddata.getLsbD 15 = true := by
  obtain ⟨u, -, hlt, hcard, h⟩ := @trip_reported _ scriptCore (wbScript tripScript)
    (fun _ => rfl) 21 ⟨false, 1, 0⟩ (fun _ => rfl) scriptCore_flag tripScript_keeps
    (by decide +kernel) rfl
  apply (h .general).mpr
  have hu : (strobes (fun _ => true) (u + 1) 21).card = 0 := hcard
  simp only [strobes, Finset.filter_true, Nat.card_Ico] at hu
  obtain rfl : u = 20 := by omega
  refine ⟨14, by omega, rfl, by decide +kernel, ?_⟩
  exact fun y _ hy _ => tripScript_notCleared hy

/-- **A clear write that is accepted has cleared its flags**: an edge of `ref_clk_i` between the
write and its acceptance took them down. -/
theorem clear_effective (hk : Keeps (wbRegsIn c inp))
    (hp : Pace (fun t => (inp t).sys) fun t => (inp t).ref) {k : Clear}
    (hdone : accessDone (wbRegsIn c inp) t = some r) (hw : writes .ctrl r = true)
    (hbit : r.dat.getLsbD k.bit = true) :
    ∃ u z, accessTaken (wbRegsIn c inp) u = some r ∧
      (strobes (fun t => (inp t).sys) (u + 1) t).card = latency r ∧
      u < z ∧ z < t ∧ (inp z).ref = true ∧
      ∀ f : Flag, f.clear = k → (wbRun c inp (z + 1)).core.flag f = false := by
  obtain ⟨-, u, hu, hut, hcard⟩ :=
    ((@regs_slave (wbRegsIn c inp) hrst).accepted_iff hk.patient).mp hdone
  have hlat : latency r = 2 := by
    simp only [writes, Bool.and_eq_true, decide_eq_true_eq] at hw
    simp [latency, hw.2, ackBit]
  have hfull := hcard
  rw [hlat] at hcard
  obtain ⟨y, hy, huy, hcy⟩ := card_strobes_eq_succ_iff.mp hcard
  obtain ⟨x, hx, hux, hcx⟩ := card_strobes_eq_succ_iff.mp hcy
  obtain ⟨hyt, hsy, -⟩ := latest_eq_some_iff.mp hy
  obtain ⟨hxy, hsx, hno⟩ := latest_eq_some_iff.mp hx
  obtain ⟨z, hxz, hzy, hrz⟩ := hp x y ⟨hsx, hsy, hxy, hno⟩
  have hpulse : Cleared c inp k z := by
    refine ⟨u, r, hu, hw, hbit, by omega, ?_⟩
    apply card_strobes_eq_succ_iff.mpr
    refine ⟨x, latest_eq_some_iff.mpr ⟨hxz, hsx, ?_⟩, hux, hcx⟩
    exact fun q hq hqz => hno q hq (by omega)
  refine ⟨u, z, hu, hfull, by omega, by omega, hrz, ?_⟩
  rintro f rfl
  rw [wbRun_core_succ, if_pos hrz, flag_step, (clear_iff hrst f.clear z).mpr hpulse]
  unfold ltcNext
  split <;> rfl

omit hrst in
/-- The clear of the script is taken up at tick `22`, and takes the latch down before it is accepted
at tick `25`. -/
theorem tripScript_cleared : ∃ z, 22 < z ∧ z < 25 ∧
    (wbRun scriptCore (wbScript tripScript) (z + 1)).core.intlkLtc = false := by
  obtain ⟨u, z, -, hcard, huz, hlt, -, h⟩ := @clear_effective _ scriptCore (wbScript tripScript)
    (fun _ => rfl) 25 ⟨true, 0, 11⟩ tripScript_keeps (fun _ y h => ⟨y, h.2.2.1, le_rfl, rfl⟩) .all
    (by decide +kernel) rfl rfl
  have hu : (strobes (fun _ => true) (u + 1) 25).card = 2 := hcard
  simp only [strobes, Finset.filter_true, Nat.card_Ico] at hu
  exact ⟨z, by omega, hlt, h .general rfl⟩

end Trips

end OrbitIntlk
