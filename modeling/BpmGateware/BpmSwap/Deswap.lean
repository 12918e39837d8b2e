import BpmGateware.BpmSwap.Basic

/-!
# De-swapping undoes swapping

In the mode `swap_deswap` the selector registers give the same command to the front end and to
the shift register. The front end exchanges the antennas at once; the shift register holds the
command back for as long as the samples take to arrive, so the channels are exchanged a second
time exactly when they had been exchanged, whatever the switching clock did in between.

## Main results

* `deswapO_run`: the shift register shows the command of `D + 1` cycles ago
* `out_step`: what one valid sample leaves at the outputs
* `deswap_undoes_swap`: the antennas come out unexchanged, with their tag
-/

namespace BpmSwap

open Clocked

variable {w d c : ℕ} {R : ShiftReg d} (s : State R c) (inp : ℕ → Input w d c)

/-- The shift register shows the deswap command of `D + 1` cycles ago. -/
theorem deswapO_run {D : BitVec d} {t u : ℕ} (ht : t = u + (D.toNat + 1))
    (hD : (inp t).deswapDelay = D) :
    (run step s inp t).deswapO (inp t) = (run step s inp u).gen.deswap := by
  have hshift : (run step s inp t).gen.shift =
      run R.step s.gen.shift (fun t => (run step s inp t).gen.deswap) t :=
    run_proj (fun s : State R c => s.gen.shift) (fun s _ => s.gen.deswap) (fun _ _ => rfl) s inp t
  rw [State.deswapO, hD, hshift, ht, R.q_run]

/-- The selector registers after an edge in mode `swap_deswap` are the same. -/
theorem swap_eq_deswap {t : ℕ} (hm : (inp t).swapMode = .swapDeswap) :
    (run step s inp (t + 1)).gen.swap = (run step s inp (t + 1)).gen.deswap := by
  simp [run_succ, step, genStep, Input.gen, hm, selSwap, selDeswap]

/-- The channels, exchanged or not. -/
def Chans.exchangeIf (x : Chans c) (b : Bool) : Chans c := if b then x.exchange else x

@[simp] theorem Chans.exchangeIf_exchangeIf (x : Chans c) (b : Bool) :
    (x.exchangeIf b).exchangeIf b = x := by
  cases b <;> rfl

/-! ## The output registers -/

/-- A valid output comes from a valid input out of reset. -/
theorem valid_of_chValid_step {s : State R c} {i : Input w d c} (h : (step s i).chValid = true) :
    i.rstN = true ∧ i.chValid = true := by
  simp only [State.chValid, step, deswapStep] at h
  cases hr : i.rstN <;> cases hv : i.chValid <;> simp_all

/-- **What a valid sample leaves at the outputs**: its channels, exchanged as the delayed command
says, and that command as the tag. -/
theorem out_step {s : State R c} {i : Input w d c} (hr : i.rstN = true) (hv : i.chValid = true) :
    (step s i).out = i.ch.exchangeIf (s.deswapO i) ∧ (step s i).tag = s.deswapO i ∧
      (step s i).chValid = true := by
  cases hd : s.deswapO i <;>
    simp [State.out, State.tag, State.chValid, step, deswapStep, hr, hv, hd, Chans.exchangeIf,
      Chans.exchange]

/-- Without a valid, and out of reset, the data and the tag stay. -/
theorem out_step_of_not_valid {s : State R c} {i : Input w d c} (hr : i.rstN = true)
    (hv : i.chValid = false) : (step s i).out = s.out ∧ (step s i).tag = s.tag := by
  simp [State.out, State.tag, step, deswapStep, hr, hv]

theorem out_stays {t u : ℕ} (hut : u ≤ t)
    (hno : ∀ x, u ≤ x → x < t → (inp x).rstN = true ∧ (inp x).chValid = false) :
    (run step s inp t).out = (run step s inp u).out ∧
      (run step s inp t).tag = (run step s inp u).tag := by
  induction t, hut using Nat.le_induction with
  | base => exact ⟨rfl, rfl⟩
  | succ t hut ih =>
    obtain ⟨hr, hv⟩ := hno t hut (by omega)
    obtain ⟨ho, htag⟩ := ih fun x hx hx' => hno x hx (by omega)
    obtain ⟨ho', htag'⟩ := out_step_of_not_valid (s := run step s inp t) hr hv
    rw [run_succ, ho', htag', ho, htag]
    exact ⟨rfl, rfl⟩

/-! ## The round trip -/

/-- The mode and the delay are constant over the `D + 3` cycles up to `t`. -/
def HeldUntil (inp : ℕ → Input w d c) (mode : SwapMode) (D : BitVec d) (t : ℕ) : Prop :=
  D.toNat + 2 ≤ t ∧
    ∀ x, t ≤ x + (D.toNat + 2) → x ≤ t → (inp x).swapMode = mode ∧ (inp x).deswapDelay = D

/-- The delayed command at cycle `t` is the deswap command of `D + 1` cycles before, one edge after
the selector saw the mode. -/
theorem HeldUntil.deswapO_eq {inp : ℕ → Input w d c} {mode : SwapMode} {D : BitVec d} {t : ℕ}
    (h : HeldUntil inp mode D t) :
    (run step s inp t).deswapO (inp t) = (run step s inp (t - (D.toNat + 1))).gen.deswap := by
  obtain ⟨ht, hheld⟩ := h
  exact deswapO_run s inp (by omega) (hheld t (by omega) le_rfl).2

/-- **De-swapping undoes swapping**. With the mode `swap_deswap` and the delay `D` held for
`D + 3` cycles, and a front end that exchanges the antennas exactly when `rffe_swclk_o` was low
`D + 1` cycles before, each valid output carries the antenna samples unexchanged, and the tag says
whether they had been exchanged. Without a valid, the outputs keep the last tuple. -/
theorem deswap_undoes_swap (ant : ℕ → Chans c) :
    (∀ (D : BitVec d) (t : ℕ), HeldUntil inp .swapDeswap D t →
      (inp t).ch = (ant t).exchangeIf !(run step s inp (t - (D.toNat + 1))).rffeSwclk →
      (run step s inp (t + 1)).chValid = true →
      (run step s inp (t + 1)).out = ant t ∧
        ((run step s inp (t + 1)).tag = true ↔
          (run step s inp (t - (D.toNat + 1))).rffeSwclk = false)) ∧
    ∀ u t, u ≤ t →
      (∀ x, u ≤ x → x < t → (inp x).rstN = true ∧ (inp x).chValid = false) →
      (run step s inp t).out = (run step s inp u).out ∧
        (run step s inp t).tag = (run step s inp u).tag := by
  refine ⟨?_, fun u t hut hno => out_stays s inp hut hno⟩
  intro D t hheld hfront hvalid
  obtain ⟨hr, hv⟩ := valid_of_chValid_step hvalid
  obtain ⟨hout, htag, -⟩ := out_step (s := run step s inp t) hr hv
  -- the command that left for the front end is the one that comes out of the shift register
  have hcmd : (run step s inp t).deswapO (inp t) =
      (run step s inp (t - (D.toNat + 1))).gen.swap := by
    obtain ⟨m, hm⟩ : ∃ m, t = m + (D.toNat + 2) := Nat.exists_eq_add_of_le' hheld.1
    rw [hheld.deswapO_eq, show t - (D.toNat + 1) = m + 1 by omega,
      swap_eq_deswap s inp (hheld.2 m (by omega) (by omega)).1]
  rw [run_succ, hout, htag, hcmd, hfront, State.rffeSwclk, Bool.not_not]
  simp

/-! ## An example run -/

/-- The generator after a reset, with nothing in the shift register. -/
def SwapGen.idle : SwapGen (ShiftReg.unbounded d) := ⟨Freq.reset, false, false, fun _ => false⟩

def State.idle : State (ShiftReg.unbounded d) c :=
  ⟨SwapGen.idle, ⟨0, 0, false, false⟩, ⟨0, 0, false, false⟩⟩

/-- A run in one mode: the clock divided by two, one cycle of delay, a valid sample in every
cycle. -/
def steadyInput (mode : SwapMode) (x : Chans 16) (_ : ℕ) : Input 16 8 16 :=
  ⟨true, false, mode, 2, true, 1, x, true⟩

theorem steadyInput_held (mode : SwapMode) (x : Chans 16) {t : ℕ} (ht : 3 ≤ t) :
    HeldUntil (steadyInput mode x) mode 1 t :=
  ⟨ht, fun _ _ _ => ⟨rfl, rfl⟩⟩

/-- At cycle 5 the antennas `1, 2, 3, 4` arrive exchanged, and come out as they were. -/
theorem exchanged_comes_back :
    (run step State.idle (steadyInput .swapDeswap ⟨2, 1, 4, 3⟩) 6).out = ⟨1, 2, 3, 4⟩ :=
  ((deswap_undoes_swap State.idle (steadyInput .swapDeswap ⟨2, 1, 4, 3⟩)
    fun _ => ⟨1, 2, 3, 4⟩).1 1 5 (steadyInput_held _ _ (by decide)) (by decide) (by decide)).1

end BpmSwap
