import BpmGateware.BpmSwap.Period
import BpmGateware.BpmSwap.Regs

/-!
# The switching with its register bank

`wb_bpm_swap`: the bank on `clk_sys_i` and `bpm_swap` on `fs_clk_i`, with the wires between them.
`wb_slave_adapter` is in front of the bank; the bus signals here are those behind it.

Software sets up the switching with one write to the control word. When that write is accepted, the
mode and the setting are at the ports of `bpm_swap`; two edges later the divider has taken the
setting, and one more serves what was pending. From then on the switching clock of the front end is
exactly periodic, whatever went on before.

## Main definitions

* `WbBpmSwap`, `WbBpmSwap.tick`: the two parts and their wires
* `swapModeOf`: the modes, as bits

## Main results

* `settled_of_card`, `not_pending_of_card`: a divider under a constant setting settles
* `exists_period`: from then on its clock changes at every `N`-th edge, and at no other one
* `switching_set_up`: what a control write makes of the clock of the front end
-/

namespace BpmSwap

open Clocked

/-! ## A divider that settles -/

section Settling

variable {w : ℕ} {v : ℕ → Bool} {x : ℕ → Freq} {i : ℕ → FreqIn w} {D : BitVec w} {T t : ℕ}

/-- **A divider on its clock**, out of reset and enabled. -/
structure OnClock (v : ℕ → Bool) (x : ℕ → Freq) (i : ℕ → FreqIn w) : Prop where
  succ : ∀ t, x (t + 1) = if v t then freqStep (x t) (i t) else x t
  rstN : ∀ t, (i t).rstN = true
  en : ∀ t, (i t).en = true

/-- From tick `T` on: a constant setting, every edge counted, and no trigger. -/
structure SetUp (v : ℕ → Bool) (i : ℕ → FreqIn w) (D : BitVec w) (T : ℕ) : Prop where
  div : ∀ t, T ≤ t → (i t).swapDivF = D
  cntEn : ∀ t, T ≤ t → (i t).cntEn = true
  quiet : ∀ t, T ≤ t → v t = true → (i t).syncTrig = false

namespace OnClock

variable (h : OnClock v x i)

include h

theorem bounded (h₀ : (x 0).Bounded) (t : ℕ) : (x t).Bounded := by
  induction t with
  | zero => exact h₀
  | succ t ih =>
    rw [h.succ]
    split
    · exact bounded_step ih (i t)
    · exact ih

theorem old_eq (t : ℕ) :
    (x t).cnstSwapDivFOld =
      sampled v (x 0).cnstSwapDivFOld (fun t => (i t).swapDivF.toNat - 1) t := by
  apply eq_sampled (r := fun t => (x t).cnstSwapDivFOld) rfl
  intro t
  rw [h.succ]
  split
  · simp [freqStep, h.rstN, h.en]
  · rfl

theorem cnst_eq (t : ℕ) :
    (x t).cnstSwapDivF =
      sampled v (x 0).cnstSwapDivF (fun t => (x t).cnstSwapDivFOld) t := by
  apply eq_sampled (r := fun t => (x t).cnstSwapDivF) rfl
  intro t
  rw [h.succ]
  split
  · simp [freqStep, h.rstN, h.en]
  · rfl

/-- **Two edges after a setting has come, both stages hold it**. -/
theorem settled_of_card (hset : SetUp v i D T) (hc : 2 ≤ (strobes v (T + 1) t).card) :
    (x t).Settled D := by
  have hold : ∀ y, 1 ≤ (strobes v (T + 1) y).card → (x y).cnstSwapDivFOld = D.toNat - 1 := by
    intro y hy
    rw [h.old_eq]
    apply sampled_eq_of_card (u := T) (k := 0) hy
    intro z hTz _ _
    rw [hset.div z hTz.le]
  refine ⟨?_, hold t (by omega)⟩
  rw [h.cnst_eq]
  apply sampled_eq_of_card (u := T) (k := 1) hc
  intro y _ _ hy
  exact hold y hy

theorem counted (hset : SetUp v i D T) (ht : T ≤ t) : (i t).counted = true := by
  rw [FreqIn.counted, h.en, hset.cntEn t ht]
  rfl

/-- **Three edges after, nothing is pending**. -/
theorem not_pending_of_card (hset : SetUp v i D T) (hc : 3 ≤ (strobes v (T + 1) t).card) :
    (x t).phase.synchPending = false := by
  obtain ⟨n, hn⟩ := Nat.exists_eq_add_of_le' hc
  obtain ⟨y, hy, hTy, hcy⟩ := card_strobes_eq_succ_iff.mp hn
  obtain ⟨hyt, hvy, hno⟩ := latest_eq_some_iff.mp hy
  have hhold : x t = x (y + 1) := by
    apply hold_between hyt
    intro z hyz hzt
    rw [h.succ, if_neg (by simp [hno z hyz hzt])]
  have hs := h.settled_of_card hset (t := y) (by omega)
  have hq := hset.quiet y (by omega) hvy
  rw [hhold, h.succ, if_pos hvy, phase_step (h.rstN y), if_neg (by simp [hq]),
    advance_settled hs, if_neg (by simp [h.counted hset (show T ≤ y by omega)])]
  by_cases hp : (x y).phase.synchPending = true
  · rw [if_pos hp]
  · rw [if_neg hp]
    split <;> simpa using hp

/-- One edge of a divider that is settled. -/
theorem edge (hset : SetUp v i D T) (hc : 3 ≤ (strobes v (T + 1) t).card) (hv : v t = true) :
    ((x (t + 1)).phase.count =
      if (x t).phase.count = D.toNat - 1 then 0 else (x t).phase.count + 1) ∧
    ((x (t + 1)).phase.clkSwap ≠ (x t).phase.clkSwap ↔ (x t).phase.count = D.toNat - 1) := by
  have hTt : T ≤ t := by
    by_contra hlt
    rw [strobes, Finset.Ico_eq_empty (by omega)] at hc
    simp at hc
  have hs := h.settled_of_card hset (t := t) (by omega)
  have hserve : (x t).serves (i t) = false := by
    rw [Freq.serves, h.not_pending_of_card hset hc, Bool.and_false]
  have hfree := free_edge (h.rstN t) hserve hs.cnst hs.old
  rw [h.succ, if_pos hv]
  simpa [h.counted hset hTt] using hfree

theorem count_lt (hset : SetUp v i D T) (hD : 0 < D.toNat) (h₀ : (x 0).Bounded)
    (hc : 3 ≤ (strobes v (T + 1) t).card) : (x t).phase.count < D.toNat := by
  have hbound := h.bounded h₀ t
  rw [Freq.Bounded, (h.settled_of_card hset (t := t) (by omega)).cnst] at hbound
  omega

/-- The count of a settled divider is the number of the edge, up to an offset. -/
theorem count_eq (hset : SetUp v i D T) (hD : 0 < D.toNat) (h₀ : (x 0).Bounded) {b : ℕ}
    (hb : 3 ≤ (strobes v (T + 1) b).card) (hbt : b ≤ t) :
    (x t).phase.count =
      (edges v t + ((x b).phase.count + (D.toNat - 1) * edges v b)) % D.toNat := by
  induction t, hbt using Nat.le_induction with
  | base =>
    have hwrap : edges v b + ((x b).phase.count + (D.toNat - 1) * edges v b) =
        (x b).phase.count + D.toNat * edges v b := by
      obtain ⟨n, hn⟩ : ∃ n, D.toNat = n + 1 := ⟨D.toNat - 1, by omega⟩
      rw [hn, Nat.add_sub_cancel, Nat.add_mul, Nat.one_mul]
      omega
    rw [hwrap, Nat.add_mul_mod_self_left, Nat.mod_eq_of_lt (h.count_lt hset hD h₀ hb)]
  | succ t hbt ih =>
    have hct := hb.trans (card_strobes_mono (v := v) (c := T + 1) hbt)
    rw [edges_succ]
    by_cases hv : v t = true
    · rw [(h.edge hset hct hv).1, if_pos hv, Nat.add_right_comm, ← Nat.mod_add_mod, ← ih]
      have hlt := h.count_lt hset hD h₀ hct
      by_cases hlast : (x t).phase.count = D.toNat - 1
      · rw [if_pos hlast, hlast, Nat.sub_add_cancel hD, Nat.mod_self]
      · rw [if_neg hlast, Nat.mod_eq_of_lt (by omega)]
    · rw [h.succ, if_neg hv, if_neg hv, ih, Nat.add_zero]

/-- **The clock of a settled divider changes at every `N`-th edge, and at no other one**. -/
theorem exists_period (hset : SetUp v i D T) (hD : 0 < D.toNat) (h₀ : (x 0).Bounded) :
    ∃ off, ∀ t, 3 ≤ (strobes v (T + 1) t).card → v t = true →
      ((x (t + 1)).phase.clkSwap ≠ (x t).phase.clkSwap ↔ D.toNat ∣ edges v t + off + 1) := by
  by_cases hex : ∃ b, 3 ≤ (strobes v (T + 1) b).card
  · refine ⟨(x (Nat.find hex)).phase.count + (D.toNat - 1) * edges v (Nat.find hex), ?_⟩
    intro t ht hv
    rw [(h.edge hset ht hv).2,
      h.count_eq hset hD h₀ (Nat.find_spec hex) (Nat.find_min' hex ht), dvd_add_one_iff hD]
  · exact ⟨0, fun t ht => absurd ⟨t, ht⟩ hex⟩

end OnClock

end Settling

/-! ## The two parts -/

variable {d c : ℕ}

/-- The state of `wb_bpm_swap`. -/
structure WbBpmSwap (R : ShiftReg d) (c : ℕ) where
  regs : Regs
  core : State R c

/-- The inputs at a tick: the edges of the two clocks, their resets, the bus, the channels, the
trigger, and the bits that the bank leaves undefined. -/
structure WbIn (c : ℕ) where
  sys : Bool
  fs : Bool
  rstN : Bool
  fsRstN : Bool
  bus : Bus 1
  undefinedLow : BitVec 2
  undefinedHigh : BitVec 8
  ch : Chans c
  chValid : Bool
  syncTrig : Bool

/-- The modes, as bits. -/
def swapModeOf (m : BitVec 2) : SwapMode :=
  match m.toNat with
  | 0 => .rffeSwap
  | 1 => .staticDirect
  | 2 => .staticInverted
  | _ => .swapDeswap

variable {R : ShiftReg d}

namespace WbBpmSwap

/-- The inputs of the bank; the reserved fields are tied to zero. -/
def regsIn (_ : WbBpmSwap R c) (i : WbIn c) : RegsIn where
  sys := i.sys
  fs := i.fs
  rstN := i.rstN
  bus := i.bus
  ctrlReserved := 0
  dlyReserved := 0
  undefinedLow := i.undefinedLow
  undefinedHigh := i.undefinedHigh

/-- The inputs of `bpm_swap`. -/
def coreIn (s : WbBpmSwap R c) (i : WbIn c) : Input 16 d c where
  rstN := i.fsRstN
  syncTrig := i.syncTrig
  swapMode := swapModeOf s.regs.ctrlMode.out
  swapDivF := s.regs.ctrlSwapDivF.out
  cntEn := s.regs.ctrlSwapDivFCntEn
  -- `regs_out.dly_deswap_o(g_delay_vec_width-1 downto 0)`
  deswapDelay := s.regs.dlyDeswap.out.setWidth d
  ch := i.ch
  chValid := i.chValid

/-- **One tick of `wb_bpm_swap`**. -/
def tick (s : WbBpmSwap R c) (i : WbIn c) : WbBpmSwap R c where
  regs := s.regs.tick (s.regsIn i)
  core := if i.fs then step s.core (s.coreIn i) else s.core

/-- The bank in reset, `bpm_swap` in the state `b`. -/
def start (b : State R c) : WbBpmSwap R c := ⟨.reset, b⟩

end WbBpmSwap

section Runs

variable (b : State R c) (inp : ℕ → WbIn c)

/-- The system from reset on. -/
abbrev wbRun (t : ℕ) : WbBpmSwap R c := run WbBpmSwap.tick (.start b) inp t

/-- What the bank sees along the run. -/
abbrev wbRegsIn (t : ℕ) : RegsIn := (wbRun b inp t).regsIn (inp t)

/-- What the divider sees along the run. -/
abbrev wbFreqIn (t : ℕ) : FreqIn 16 := ((wbRun b inp t).coreIn (inp t)).gen.toFreqIn

theorem wbRun_regs (t : ℕ) : (wbRun b inp t).regs = regsRun (wbRegsIn b inp) t :=
  run_proj WbBpmSwap.regs WbBpmSwap.regsIn (fun _ _ => rfl) _ inp t

theorem wbRun_core_succ (t : ℕ) :
    (wbRun b inp (t + 1)).core =
      if (inp t).fs then step (wbRun b inp t).core ((wbRun b inp t).coreIn (inp t))
      else (wbRun b inp t).core := rfl

variable {b inp}

theorem wb_onClock (hfs : ∀ t, (inp t).fsRstN = true) :
    OnClock (fun t => (inp t).fs) (fun t => (wbRun b inp t).core.gen.freq) (wbFreqIn b inp) where
  succ t := by
    rw [wbRun_core_succ]
    split <;> rfl
  rstN := hfs
  en _ := rfl

/-- The swap command is the mode's choice at the last edge. -/
theorem wb_swap_eq (hfs : ∀ t, (inp t).fsRstN = true) (t : ℕ) :
    (wbRun b inp t).core.gen.swap = sampled (fun t => (inp t).fs) b.gen.swap
      (fun y => selSwap (swapModeOf (wbRun b inp y).regs.ctrlMode.out)
        (wbRun b inp y).core.gen.freq.phase.clkSwap) t := by
  apply eq_sampled (r := fun t => (wbRun b inp t).core.gen.swap) rfl
  intro t
  rw [wbRun_core_succ]
  split
  · simp [step, genStep, Input.gen, WbBpmSwap.coreIn, hfs t]
  · rfl

end Runs

/-! ## Setting up the switching -/

section SetUp

variable {b : State R c} {inp : ℕ → WbIn c} {T : ℕ} {r : Access}

/-- **The control write `r` is accepted at tick `T` and is the last one**. -/
structure LastWrite (b : State R c) (inp : ℕ → WbIn c) (T : ℕ) (r : Access) : Prop where
  done : accessDone (wbRegsIn b inp) T = some r
  ctrl : writes .ctrl r = true
  last : ∀ t q, T ≤ t → accessTaken (wbRegsIn b inp) t = some q → writes .ctrl q = false

variable (hrst : ∀ t, (inp t).rstN = true) (hk : Keeps (wbRegsIn b inp))
  (hp : Paced (wbRegsIn b inp)) (h : LastWrite b inp T r)

include hrst hk hp h

/-- **When the write is accepted, its fields are at the ports**, and they stay. -/
theorem LastWrite.ports {t : ℕ} (ht : T ≤ t) :
    (wbRun b inp t).regs.ctrlMode.out = modeField r.dat ∧
      (wbRun b inp t).regs.ctrlSwapDivF.out = divField r.dat ∧
      (wbRun b inp t).regs.ctrlSwapDivFCntEn = r.dat.getLsbD 5 := by
  obtain ⟨-, u, hu, huT, hc⟩ := (accessDone_iff hrst hk).mp h.done
  have hno : ∀ y, u < y → y < t → ∀ q, accessTaken (wbRegsIn b inp) y = some q →
      writes .ctrl q = false := by
    intro y huy hyt q hq
    rcases Nat.lt_or_ge y T with hlt | hge
    · rw [taken_eq_none hrst hu huy ((card_strobes_mono hlt.le).trans hc.le)] at hq
      cases hq
    · exact h.last y q hge hq
  have hct := card_strobes_mono (v := fun t => (wbRegsIn b inp t).sys) (c := u + 1) ht
  have hpair := AsyncRw.out_inForce (@regs_slave (wbRegsIn b inp) hrst)
    (x := fun t => (regsRun (wbRegsIn b inp) t).modeAndDiv) (z := (0, 0)) rfl
    (modeAndDiv_succ hrst) (two_le_latency .ctrl) hp hu h.ctrl (t := t) (by omega) hno
  have hen : (regsRun (wbRegsIn b inp) t).ctrlSwapDivFCntEn = r.dat.getLsbD 5 := by
    have hcnt := @cntEn_succ (wbRegsIn b inp) hrst
    rw [← rwExec_written (m := fun t => (regsRun (wbRegsIn b inp) t).ctrlSwapDivFCntEn) hcnt hu
      h.ctrl]
    exact rwExec_hold (m := fun t => (regsRun (wbRegsIn b inp) t).ctrlSwapDivFCntEn) hcnt
      (show u + 1 ≤ t by omega) hno
  rw [wbRun_regs]
  exact ⟨congrArg Prod.fst hpair, congrArg Prod.snd hpair, hen⟩

theorem LastWrite.setUp (hen : r.dat.getLsbD 5 = true)
    (hquiet : ∀ t, T ≤ t → (inp t).fs = true → (inp t).syncTrig = false) :
    SetUp (fun t => (inp t).fs) (wbFreqIn b inp) (divField r.dat) T where
  div _ ht := (h.ports hrst hk hp ht).2.1
  cntEn _ ht := (h.ports hrst hk hp ht).2.2.trans hen
  quiet := hquiet

/-- **What a control write makes of the clock of the front end**. Four edges of `fs_clk_i` after it
is accepted, with the counter enabled, a divider setting `N`, a mode that switches and no more
triggers, `rffe_swclk_o` changes at every `N`-th edge and at no other one; in the static modes it is
at its level one edge after, whatever the divider and the triggers do. -/
theorem switching_set_up (hfs : ∀ t, (inp t).fsRstN = true) :
    ((swapModeOf (modeField r.dat) = .swapDeswap ∨ swapModeOf (modeField r.dat) = .rffeSwap) →
      r.dat.getLsbD 5 = true → divField r.dat ≠ 0 → b.gen.freq.Bounded →
      (∀ t, T ≤ t → (inp t).fs = true → (inp t).syncTrig = false) →
      ∃ off, ∀ t, (inp t).fs = true → 4 ≤ (strobes (fun t => (inp t).fs) (T + 1) t).card →
        (changes (fun t => (wbRun b inp t).core.rffeSwclk) t = true ↔
          (divField r.dat).toNat ∣ edges (fun t => (inp t).fs) t + off)) ∧
    (swapModeOf (modeField r.dat) = .staticDirect →
      ∀ t, 1 ≤ (strobes (fun t => (inp t).fs) (T + 1) t).card →
        (wbRun b inp t).core.rffeSwclk = true) ∧
    (swapModeOf (modeField r.dat) = .staticInverted →
      ∀ t, 1 ≤ (strobes (fun t => (inp t).fs) (T + 1) t).card →
        (wbRun b inp t).core.rffeSwclk = false) := by
  have hstatic : ∀ l, (∀ k, selSwap (swapModeOf (modeField r.dat)) k = l) →
      ∀ t, 1 ≤ (strobes (fun t => (inp t).fs) (T + 1) t).card →
        (wbRun b inp t).core.gen.swap = l := by
    intro l hl t ht
    rw [wb_swap_eq hfs]
    apply sampled_eq_of_card (u := T) (k := 0) ht
    intro y hTy _ _
    rw [(h.ports hrst hk hp hTy.le).1, hl]
  refine ⟨?_, ?_, ?_⟩
  · intro hm hen hD hb hquiet
    have hsel : ∀ k, selSwap (swapModeOf (modeField r.dat)) k = k := by
      intro k
      rcases hm with hm | hm <;> rw [hm] <;> rfl
    have hpos : 0 < (divField r.dat).toNat := by
      rw [Nat.pos_iff_ne_zero]
      exact fun hz => hD (BitVec.eq_of_toNat_eq hz)
    obtain ⟨off, hoff⟩ := (wb_onClock hfs).exists_period (h.setUp hrst hk hp hen hquiet) hpos hb
    refine ⟨off, fun t hft hct => ?_⟩
    obtain ⟨n, hn⟩ := Nat.exists_eq_add_of_le' hct
    obtain ⟨y, hy, hTy, hcy⟩ := card_strobes_eq_succ_iff.mp hn
    obtain ⟨hyt, hfy, hno⟩ := latest_eq_some_iff.mp hy
    have hnow : (wbRun b inp t).core.gen.swap = (wbRun b inp y).core.gen.freq.phase.clkSwap := by
      rw [wb_swap_eq hfs, sampled_of_latest hy, (h.ports hrst hk hp (by omega)).1, hsel]
    have hnext : (wbRun b inp (t + 1)).core.gen.swap =
        (wbRun b inp t).core.gen.freq.phase.clkSwap := by
      rw [wb_swap_eq hfs, sampled_succ, if_pos hft, (h.ports hrst hk hp (by omega)).1, hsel]
    have hclk : (wbRun b inp t).core.gen.freq.phase.clkSwap =
        (wbRun b inp (y + 1)).core.gen.freq.phase.clkSwap := by
      apply hold_between (g := fun t => (wbRun b inp t).core.gen.freq.phase.clkSwap) hyt
      intro z hyz hzt
      rw [wbRun_core_succ, if_neg (by simp [hno z hyz hzt])]
    have hedges : edges (fun t => (inp t).fs) t = edges (fun t => (inp t).fs) y + 1 := by
      have hge : (strobes (fun t => (inp t).fs) 0 t).card =
          (strobes (fun t => (inp t).fs) 0 y).card + 1 := by
        apply card_strobes_eq_succ_iff.mpr
        exact ⟨y, hy, Nat.zero_le y, rfl⟩
      exact hge
    rw [changes_eq_true, State.rffeSwclk, State.rffeSwclk, hnow, hnext, hclk, hedges,
      Nat.add_right_comm, ← hoff y (by omega) hfy]
    simp
  · intro hm t ht
    rw [State.rffeSwclk, hstatic false (fun k => by rw [hm]; rfl) t ht]
    rfl
  · intro hm t ht
    rw [State.rffeSwclk, hstatic true (fun k => by rw [hm]; rfl) t ht]
    rfl

/-- Both clocks at every tick, and no trigger. -/
def wbScript (f : ℕ → Option Access) (t : ℕ) : WbIn 16 where
  sys := true
  fs := true
  rstN := true
  fsRstN := true
  bus := .ofReq (f t)
  undefinedLow := 0
  undefinedHigh := 0
  ch := ⟨0, 0, 0, 0⟩
  chValid := true
  syncTrig := false

/-- The switching of the script at power-up. -/
abbrev scriptCore : State (ShiftReg.unbounded 4) 16 :=
  ⟨genReset, ⟨0, 0, false, false⟩, ⟨0, 0, false, false⟩⟩

omit hrst hk hp h in
/-- The control write of the script is accepted at tick `4`, and only a read follows. -/
theorem byTwoScript_lastWrite :
    LastWrite scriptCore (wbScript byTwoScript) 4 ⟨true, 0, 0x226⟩ where
  done := by decide +kernel
  ctrl := by decide
  last := by
    intro t q ht hq
    rcases Nat.lt_or_ge t 10 with hlt | hge
    · have hno : ∀ t < 10, 4 ≤ t → ∀ q ∈ accessTaken (wbRegsIn scriptCore
          (wbScript byTwoScript)) t, writes .ctrl q = false := by decide +kernel
      exact hno t hlt ht q hq
    · have hreq := ((regs_slave fun _ => rfl).started_eq_some.mp hq).2.2
      rw [show (wbRegsIn scriptCore (wbScript byTwoScript) t).bus.req = byTwoScript t from
        Bus.req_ofReq _, byTwoScript_ended hge] at hreq
      cases hreq

omit hrst hk hp h in
/-- The front end of the script is switched by two, a million edges later still. -/
theorem byTwoScript_switches :
    changes (fun t => (wbRun scriptCore (wbScript byTwoScript) t).core.rffeSwclk) 1000000 =
      true := by
  have hkeep : Keeps (wbRegsIn scriptCore (wbScript byTwoScript)) := by
    apply patient_of_finite (m := 10)
    · exact fun t ht => (Bus.req_ofReq (byTwoScript t)).trans (byTwoScript_ended ht)
    · decide +kernel
  obtain ⟨off, hoff⟩ := (switching_set_up (fun _ => rfl) hkeep
    (fun _ y h => ⟨y, h.2.2.1, le_rfl, rfl⟩) byTwoScript_lastWrite fun _ => rfl).1 (.inl rfl) rfl
    (by decide) (Nat.le_refl 0) fun _ _ _ => rfl
  have hall : ∀ t, edges (fun t => (wbScript byTwoScript t).fs) t = t := by
    intro t
    simp [edges, strobes, wbScript]
  have hten := (hoff 10 rfl (by decide)).mp (by decide +kernel)
  rw [hoff 1000000 rfl (by simp [strobes, wbScript]), hall, show (1000000 : ℕ) + off =
    10 + off + 999990 by omega]
  rw [hall] at hten
  exact Nat.dvd_add hten (by decide)

end SetUp

end BpmSwap
