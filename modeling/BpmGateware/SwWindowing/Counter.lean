import BpmGateware.Clocked.Stretch
import Mathlib.Data.BitVec

/-!
# The window counter

`counter` of `sw_windowing` addresses a table with one half of a symmetric window. Its index climbs
from `0` to the last address and comes down again, and on the way it toggles the switch, once in
each half: `switch_delay_i` samples before the end of the half.

The toggle is decided on the updated index, and the two ends of the triangle are visited once each.
An upward half therefore starts at index `1` and a downward half below the last address, so a delay
of the whole half window, which the source admits, finds its index in neither.

## Main definitions

* `Counter`, `counterStep`: `counter`
* `triangle L m`: the triangle wave between `0` and `L`
* `HalfWindows`: the index is the triangle wave, and the switch toggles once in each half

## Main results

* `follows_run`: index, direction and toggles after any number of enabled edges
* `halfWindows_iff`: the delays with one toggle in each half
-/

namespace SwWindowing

open Clocked

variable {b : ℕ}

/-! ## The counter -/

/-- The registers of `counter`. -/
structure Counter (b : ℕ) where
  count : BitVec b
  goingUp : Bool
  switchState : Bool
  index : BitVec b
  switch : Bool
  deriving DecidableEq

/-- What `counter` samples at one edge. -/
structure CounterIn where
  rstN : Bool
  ce : Bool
  switchDelay : BitVec 16
  switchEn : Bool

/-- `last_address` -/
def lastAddress (memSize : ℕ) : ℕ := memSize - 1

/-- `switch_delay_slice` -/
def CounterIn.switchDelaySlice (i : CounterIn) : BitVec b := i.switchDelay.setWidth b

/-- The reset, also taken while switching is disabled; it leaves the outputs. -/
def Counter.clear (s : Counter b) : Counter b :=
  { s with count := 0, goingUp := true, switchState := false }

/-- An edge of the way up. `count` is a variable: all tests are on its new value. -/
def Counter.up (memSize : ℕ) (s : Counter b) (i : CounterIn) : Counter b where
  count := s.count + 1
  goingUp := !decide ((s.count + 1).toNat = lastAddress memSize)
  switchState :=
    if s.count + 1 = BitVec.ofNat b (lastAddress memSize) - i.switchDelaySlice then !s.switchState
    else s.switchState
  index := s.count + 1
  switch := s.switchState

/-- An edge of the way down. -/
def Counter.down (s : Counter b) (i : CounterIn) : Counter b where
  count := s.count - 1
  goingUp := decide (s.count - 1 = 0)
  switchState := if s.count - 1 = i.switchDelaySlice then !s.switchState else s.switchState
  index := s.count - 1
  switch := s.switchState

/-- **One edge of `counter`**. -/
def counterStep (memSize : ℕ) (s : Counter b) (i : CounterIn) : Counter b :=
  if i.rstN = false then s.clear
  else if i.ce = false then s
  else if i.switchEn = false then s.clear
  else if s.goingUp then s.up memSize i
  else s.down i

/-! ## The triangle wave -/

/-- The triangle wave between `0` and `L`, of period `2 * L`. -/
def triangle (L m : ℕ) : ℕ := if m % (2 * L) ≤ L then m % (2 * L) else 2 * L - m % (2 * L)

theorem triangle_le (L m : ℕ) : triangle L m ≤ L := by
  unfold triangle
  split_ifs <;> omega

/-- The next place in the period. -/
theorem succ_mod_period {L : ℕ} (hL : 0 < L) (m : ℕ) :
    (m + 1) % (2 * L) = if m % (2 * L) + 1 = 2 * L then 0 else m % (2 * L) + 1 := by
  have hlt := Nat.mod_lt m (show 0 < 2 * L by omega)
  rw [Nat.add_mod_eq_ite, Nat.one_mod_eq_one.mpr (by omega)]
  split_ifs <;> omega

/-- The place in the half. -/
theorem mod_half {L : ℕ} (m : ℕ) :
    m % L = if m % (2 * L) < L then m % (2 * L) else m % (2 * L) - L := by
  rcases Nat.eq_zero_or_pos L with rfl | hL
  · simp
  · have hlt := Nat.mod_lt m (show 0 < 2 * L by omega)
    rw [← Nat.mod_mul_left_mod m 2 L]
    split_ifs with h
    · exact Nat.mod_eq_of_lt h
    · rw [Nat.mod_eq_sub_mod (by omega), Nat.mod_eq_of_lt (by omega)]

/-! ## One edge -/

/-- Out of reset, switching, with the delay `d`. -/
structure CounterIn.Switching (i : CounterIn) (d : BitVec 16) : Prop where
  rstN : i.rstN = true
  switchEn : i.switchEn = true
  delay : i.switchDelay = d

/-- The counter after `m` enabled edges. -/
structure Counter.Follows (s : Counter b) (L m : ℕ) : Prop where
  count : s.count.toNat = triangle L m
  goingUp : s.goingUp = decide (m % (2 * L) < L)

/-- Enabled edge `m` is the one that toggles in its half of length `L`, under the delay `d`. -/
def toggleAt (L d m : ℕ) : Bool := decide (m % L + 1 + d = L)

theorem toggle_eq {p : Prop} [Decidable p] {x : Bool} {L d m : ℕ} (h : p ↔ m % L + 1 + d = L) :
    (if p then !x else x) = (x ^^ toggleAt L d m) := by
  unfold toggleAt
  by_cases hp : p
  · simp [hp, h.mp hp]
  · simp [hp, mt h.mpr hp]

section Edge

variable {memSize m : ℕ} {s : Counter b} {i : CounterIn} {d : BitVec 16}
  (hL : 0 < lastAddress memSize) (hb : lastAddress memSize < 2 ^ b)

theorem slice_toNat (hi : i.Switching d) (hd : d.toNat < 2 ^ b) :
    (i.switchDelaySlice : BitVec b).toNat = d.toNat := by
  unfold CounterIn.switchDelaySlice
  rw [hi.delay, BitVec.toNat_setWidth, Nat.mod_eq_of_lt hd]

include hL hb

theorem toNat_one_of_lt : (1 : BitVec b).toNat = 1 := by
  have h : 1 < 2 ^ b := by omega
  exact Nat.mod_eq_of_lt h

theorem add_one_toNat {x : BitVec b} (hx : x.toNat < lastAddress memSize) :
    (x + 1).toNat = x.toNat + 1 := by
  have h1 := toNat_one_of_lt hL hb
  rw [BitVec.toNat_add_of_lt (by omega), h1]

theorem sub_one_toNat {x : BitVec b} (hx : 0 < x.toNat) : (x - 1).toNat = x.toNat - 1 := by
  have h1 := toNat_one_of_lt hL hb
  rw [BitVec.toNat_sub_of_le (by rwa [BitVec.le_def, h1]), h1]

variable (hd : d.toNat ≤ lastAddress memSize) (hi : i.Switching d)
  (hs : s.Follows (lastAddress memSize) m)

include hd hi hs

theorem follows_up (hup : m % (2 * lastAddress memSize) < lastAddress memSize) :
    (s.up memSize i).Follows (lastAddress memSize) (m + 1) ∧
      (s.up memSize i).switchState =
        (s.switchState ^^ toggleAt (lastAddress memSize) d.toNat m) := by
  have hcount : s.count.toNat = m % (2 * lastAddress memSize) := by
    rw [hs.count, triangle, if_pos hup.le]
  have hnew := add_one_toNat hL hb (x := s.count) (by omega)
  -- the toggle on the way up is a test against the last address less the delay
  have htest : (BitVec.ofNat b (lastAddress memSize) - i.switchDelaySlice).toNat =
      lastAddress memSize - d.toNat := by
    have hslice : (i.switchDelaySlice : BitVec b).toNat = d.toNat :=
      slice_toNat hi (by omega)
    have hofNat : (BitVec.ofNat b (lastAddress memSize)).toNat = lastAddress memSize :=
      Nat.mod_eq_of_lt hb
    rw [BitVec.toNat_sub_of_le, hofNat, hslice]
    rw [BitVec.le_def, hofNat, hslice]
    exact hd
  have hnext := succ_mod_period hL m
  rw [if_neg (by omega)] at hnext
  refine ⟨⟨?_, ?_⟩, ?_⟩
  · unfold triangle
    rw [hnext, if_pos (Nat.succ_le_of_lt hup)]
    exact hnew.trans (by rw [hcount])
  · have hlast : (s.count + 1).toNat = lastAddress memSize ↔
        ¬ (m + 1) % (2 * lastAddress memSize) < lastAddress memSize := by omega
    unfold Counter.up
    simp only [hlast, decide_not, Bool.not_not]
  · apply toggle_eq
    rw [← BitVec.toNat_inj, htest, mod_half, if_pos hup]
    omega

theorem follows_down (hdown : ¬ m % (2 * lastAddress memSize) < lastAddress memSize) :
    (s.down i).Follows (lastAddress memSize) (m + 1) ∧
      (s.down i).switchState = (s.switchState ^^ toggleAt (lastAddress memSize) d.toNat m) := by
  have hlt := Nat.mod_lt m (show 0 < 2 * lastAddress memSize by omega)
  have hcount : s.count.toNat = 2 * lastAddress memSize - m % (2 * lastAddress memSize) := by
    rw [hs.count, triangle]
    split_ifs <;> omega
  have hnew := sub_one_toNat hL hb (x := s.count) (by omega)
  -- the toggle on the way down is a test against the delay itself
  have hslice : (i.switchDelaySlice : BitVec b).toNat = d.toNat := slice_toNat hi (by omega)
  have hnext := succ_mod_period hL m
  refine ⟨⟨?_, ?_⟩, ?_⟩
  · unfold triangle
    rw [hnext]
    change (s.count - 1).toNat = _
    split_ifs <;> omega
  · have hfirst : s.count - 1 = 0 ↔
        (m + 1) % (2 * lastAddress memSize) < lastAddress memSize := by
      rw [← BitVec.toNat_inj, hnew, hnext, hcount]
      simp only [BitVec.toNat_ofNat, Nat.zero_mod, BitVec.ofNat_eq_ofNat]
      split_ifs <;> omega
    unfold Counter.down
    simp only [hfirst]
  · apply toggle_eq
    rw [← BitVec.toNat_inj, hslice, mod_half, if_neg hdown]
    omega

end Edge

/-! ## Whole runs -/

/-- The registers after a reset, and at power-up. -/
structure Counter.AtReset (s : Counter b) : Prop where
  count : s.count = 0
  goingUp : s.goingUp = true
  switchState : s.switchState = false

theorem atReset_of_rst {memSize : ℕ} {i : CounterIn} (hr : i.rstN = false) (s : Counter b) :
    (counterStep memSize s i).AtReset := by
  rw [counterStep, if_pos hr]
  exact ⟨rfl, rfl, rfl⟩

/-- **Half windows**: the index is the triangle wave of the enabled edges and stays among the
addresses, and in each half of a window, from one end of the triangle to the other, the switch
toggles once. The halves with even `j` are the upward ones. -/
structure HalfWindows (L : ℕ) (ce : ℕ → Bool) (c : ℕ → Counter b) : Prop where
  index : ∀ t, (c t).count.toNat = triangle L (edges ce t)
  bound : ∀ t, (c t).count.toNat ≤ L
  toggles : ∀ j x y, edges ce x = j * L → edges ce y = (j + 1) * L →
    (strobes (changes fun t => (c t).switchState) x y).card = 1

section Runs

variable {memSize : ℕ} {s : Counter b} {inp : ℕ → CounterIn} {d : BitVec 16}
  (hL : 0 < lastAddress memSize) (hb : lastAddress memSize < 2 ^ b)
  (hd : d.toNat ≤ lastAddress memSize)

include hL hb hd

/-- **One edge of a window**: an enabled one moves along the triangle, and toggles at its place in
the half. -/
theorem follows_step {m : ℕ} {i : CounterIn} (hi : i.Switching d)
    (hs : s.Follows (lastAddress memSize) m) :
    (counterStep memSize s i).Follows (lastAddress memSize) (m + if i.ce then 1 else 0) ∧
      (counterStep memSize s i).switchState =
        (s.switchState ^^ (i.ce && toggleAt (lastAddress memSize) d.toNat m)) := by
  unfold counterStep
  rw [if_neg (by simp [hi.rstN]), if_neg (by simp [hi.switchEn] : ¬ i.switchEn = false)]
  cases hce : i.ce with
  | false => simpa using hs
  | true =>
    simp only [Bool.true_eq_false, if_false, if_true, Bool.true_and, hs.goingUp, decide_eq_true_eq]
    by_cases hup : m % (2 * lastAddress memSize) < lastAddress memSize
    · rw [if_pos hup]
      exact follows_up hL hb hd hi hs hup
    · rw [if_neg hup]
      exact follows_down hL hb hd hi hs hup

variable (hs : s.AtReset) (hi : ∀ t, (inp t).Switching d)

include hs hi

/-- **The counter follows the triangle wave** of its enabled edges. -/
theorem follows_run (t : ℕ) :
    (run (counterStep memSize) s inp t).Follows (lastAddress memSize)
      (edges (fun t => (inp t).ce) t) := by
  apply run_invariant
    (I := fun t s => Counter.Follows s (lastAddress memSize) (edges (fun t => (inp t).ce) t))
  · refine ⟨?_, ?_⟩
    · rw [hs.count, edges_zero]
      simp [triangle]
    · rw [hs.goingUp, edges_zero]
      simp [hL]
  · intro t s hs
    rw [edges_succ]
    exact (follows_step hL hb hd (hi t) hs).1

theorem changes_run (t : ℕ) :
    changes (fun t => (run (counterStep memSize) s inp t).switchState) t =
      ((inp t).ce && toggleAt (lastAddress memSize) d.toNat (edges (fun t => (inp t).ce) t)) := by
  have hstep := (follows_step hL hb hd (hi t) (follows_run hL hb hd hs hi t)).2
  simp only [changes, run_succ, hstep]
  cases (run (counterStep memSize) s inp t).switchState <;> simp

/-- The toggles of a half window are those of its enabled edges. -/
theorem card_toggles {j x y : ℕ} (hx : edges (fun t => (inp t).ce) x = j * lastAddress memSize)
    (hy : edges (fun t => (inp t).ce) y = (j + 1) * lastAddress memSize) :
    (strobes (changes fun t => (run (counterStep memSize) s inp t).switchState) x y).card =
      (strobes (toggleAt (lastAddress memSize) d.toNat) (j * lastAddress memSize)
        ((j + 1) * lastAddress memSize)).card := by
  have hxy : x ≤ y := by
    by_contra hlt
    have := edges_mono (v := fun t => (inp t).ce) (show y ≤ x by omega)
    rw [hx, hy, Nat.add_mul] at this
    omega
  rw [← hx, ← hy, ← card_strobes_edges _ hxy]
  congr 2
  ext t
  exact changes_run hL hb hd hs hi t

end Runs

/-- A delay below the half window has its place in each half; the whole half window has none. -/
theorem card_toggleAt (L d j : ℕ) :
    (strobes (toggleAt L d) (j * L) ((j + 1) * L)).card = if d < L then 1 else 0 := by
  have hmod : ∀ m, j * L ≤ m → m < (j + 1) * L → m % L = m - j * L := by
    intro m hm hm'
    obtain ⟨q, rfl⟩ := Nat.exists_eq_add_of_le hm
    rw [Nat.add_mul] at hm'
    rw [Nat.mul_add_mod', Nat.add_sub_cancel_left, Nat.mod_eq_of_lt (by omega)]
  split_ifs with hd
  · rw [Finset.card_eq_one]
    refine ⟨j * L + (L - d - 1), ?_⟩
    ext m
    simp only [strobes, toggleAt, Finset.mem_filter, Finset.mem_Ico, decide_eq_true_eq,
      Finset.mem_singleton]
    constructor
    · rintro ⟨⟨hm, hm'⟩, htoggle⟩
      rw [hmod m hm hm'] at htoggle
      omega
    · rintro rfl
      have hin : j * L + (L - d - 1) < (j + 1) * L := by
        rw [Nat.add_mul]
        omega
      refine ⟨⟨Nat.le_add_right _ _, hin⟩, ?_⟩
      rw [hmod _ (Nat.le_add_right _ _) hin]
      omega
  · rw [Finset.card_eq_zero]
    ext m
    simp only [strobes, toggleAt, Finset.mem_filter, Finset.mem_Ico, decide_eq_true_eq,
      Finset.notMem_empty, iff_false]
    rintro ⟨-, htoggle⟩
    omega

/-- **One toggle in each half window**. In every run from reset with switching enabled and a delay
of at most the last address, whatever the enables: the index is the triangle wave, and the switch
toggles once in every half, just if the delay is less than the last address (or the run never
reaches the end of a half). -/
theorem halfWindows_iff {memSize : ℕ} (hm : 2 ≤ memSize) (hb : lastAddress memSize < 2 ^ b)
    {d : BitVec 16} (hd : d.toNat ≤ lastAddress memSize) {s : Counter b} (hs : s.AtReset)
    {inp : ℕ → CounterIn} (hi : ∀ t, (inp t).Switching d) :
    HalfWindows (lastAddress memSize) (fun t => (inp t).ce) (run (counterStep memSize) s inp) ↔
      d.toNat < lastAddress memSize ∨
        ∀ t, edges (fun t => (inp t).ce) t < lastAddress memSize := by
  have hL : 0 < lastAddress memSize := Nat.sub_pos_of_lt hm
  constructor
  · intro hw
    by_contra hno
    simp only [not_or, not_forall, not_lt] at hno
    obtain ⟨hge, t, ht⟩ := hno
    -- the first upward half is complete, and nothing toggles in it
    obtain ⟨y, hy⟩ := exists_edges_eq ht
    have hfirst : edges (fun t => (inp t).ce) 0 = 0 * lastAddress memSize := by simp
    have hend : edges (fun t => (inp t).ce) y = (0 + 1) * lastAddress memSize := by simp [hy]
    have hone := hw.toggles 0 0 y hfirst hend
    rw [card_toggles hL hb hd hs hi hfirst hend, card_toggleAt, if_neg (by omega)] at hone
    exact Nat.zero_ne_one hone
  · intro hcond
    have hindex : ∀ t, (run (counterStep memSize) s inp t).count.toNat =
        triangle (lastAddress memSize) (edges (fun t => (inp t).ce) t) :=
      fun t => (follows_run hL hb hd hs hi t).count
    refine ⟨hindex, ?_, ?_⟩
    · intro t
      rw [hindex]
      exact triangle_le _ _
    · intro j x y hx hy
      rcases hcond with hlt | hshort
      · rw [card_toggles hL hb hd hs hi hx hy, card_toggleAt, if_pos hlt]
      · have := hshort y
        rw [hy, Nat.add_mul] at this
        omega

/-- The counter at power-up. -/
def powerUp (b : ℕ) : Counter b := ⟨0, true, false, 0, false⟩

theorem powerUp_atReset (b : ℕ) : (powerUp b).AtReset := ⟨rfl, rfl, rfl⟩

/-- Switching with the delay `d`, enabled in every second cycle. -/
def everySecond (d : BitVec 16) (t : ℕ) : CounterIn := ⟨true, t % 2 == 0, d, true⟩

theorem everySecond_switching (d : BitVec 16) (t : ℕ) : (everySecond d t).Switching d :=
  ⟨rfl, rfl, rfl⟩

/-- Four addresses and a delay of two. -/
theorem delayTwo_halfWindows :
    HalfWindows (lastAddress 4) (fun t => (everySecond 2 t).ce)
      (run (counterStep 4) (powerUp 2) (everySecond 2)) :=
  (halfWindows_iff (by decide) (by decide) (by decide) (powerUp_atReset 2)
    (everySecond_switching 2)).mpr (.inl (by decide))

/-- **The delay of the whole half window**: four addresses, a delay of three, which is the last
address. In neither half of the first window the switch toggles. -/
theorem delayThree_never :
    (3 : BitVec 16).toNat ≤ lastAddress 4 ∧
      edges (fun t => (everySecond 3 t).ce) 5 = 3 ∧ edges (fun t => (everySecond 3 t).ce) 11 = 6 ∧
      (strobes (changes fun t =>
        (run (counterStep 4) (powerUp 2) (everySecond 3) t).switchState) 0 5).card = 0 ∧
      (strobes (changes fun t =>
        (run (counterStep 4) (powerUp 2) (everySecond 3) t).switchState) 5 11).card = 0 := by
  decide

end SwWindowing
