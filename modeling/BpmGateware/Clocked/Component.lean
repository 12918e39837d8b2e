import BpmGateware.Clocked.Run

/-!
# Components known by their behaviour

Cores that a design instantiates without their source: a pipelined adder, an addressable shift
register, a pipeline, a ROM and a multiplier. Each is a machine of its own, of which only the law
its users rely on is known: what its outputs show, a fixed number of edges after the inputs they
were computed from. A structure carries the machine together with that law, so every result about a
design holds for every core that obeys it, whatever its registers hold at power-up.

## Main definitions

* `Adder w k`: a `w`-bit adder with carry and valid, of latency `k`
* `ShiftReg w`: a shift register read at a `w`-bit address
* `Pipe α k`: `k` registers in a row, with a clock enable
* `Rom b w`: a table read in one clock
* `Multiplier m n r k`: a multiplier of latency `k` that carries a valid and a tag
* `signedGe`, `signedLe`: signed comparison read off a carry and two sign bits

## Main results

* `signedGe_eq`, `signedLe_eq`: the two comparators decide the signed order, at every width
* `signedGe_eq_sle_iff`, `signedLe_eq_sle_iff`: what becomes of them with another word's sign bit
-/

namespace Clocked

/-! ## The pipelined adder -/

/-- The operands presented to an adder at one edge. -/
structure AdderIn (w : ℕ) where
  valid : Bool
  a : BitVec w
  b : BitVec w
  c : Bool

variable {w : ℕ}

/-- The sum modulo `2 ^ w`. -/
def AdderIn.sum (i : AdderIn w) : BitVec w := i.a + i.b + BitVec.ofNat w i.c.toNat

/-- The carry out of the top bit. -/
def AdderIn.carry (i : AdderIn w) : Bool := BitVec.carry w i.a i.b i.c

/-- **A pipelined adder of latency `k`**: it takes operands at every edge, and after `k` edges
shows their sum, their carry and their valid. -/
structure Adder (w k : ℕ) where
  /-- the registers inside the core -/
  State : Type
  step : State → AdderIn w → State
  sum : State → BitVec w
  carry : State → Bool
  valid : State → Bool
  sum_run : ∀ s inp t, sum (run step s inp (t + k)) = (inp t).sum
  carry_run : ∀ s inp t, carry (run step s inp (t + k)) = (inp t).carry
  valid_run : ∀ s inp t, valid (run step s inp (t + k)) = (inp t).valid

/-- The adder that computes at its output: two stages of operand registers. -/
def Adder.twoStage (w : ℕ) : Adder w 2 where
  State := AdderIn w × AdderIn w
  step s i := (i, s.1)
  sum s := s.2.sum
  carry s := s.2.carry
  valid s := s.2.valid
  sum_run _ _ _ := rfl
  carry_run _ _ _ := rfl
  valid_run _ _ _ := rfl

/-! ## The addressable shift register -/

/-- **A shift register read at an address**: address `a` shows what went in `a + 1` edges
ago. -/
structure ShiftReg (w : ℕ) where
  /-- the registers inside the core -/
  State : Type
  step : State → Bool → State
  q : State → BitVec w → Bool
  q_run : ∀ s inp t a, q (run step s inp (t + (a.toNat + 1))) a = inp t

/-- The bits of a shift register: each edge moves them up by one place. -/
def shiftIn (bits : ℕ → Bool) (d : Bool) : ℕ → Bool
  | 0 => d
  | i + 1 => bits i

theorem run_shiftIn (bits : ℕ → Bool) (inp : ℕ → Bool) (t i : ℕ) :
    run shiftIn bits inp (t + (i + 1)) i = inp t := by
  induction i with
  | zero => rfl
  | succ i ih => exact ih

/-- The shift register that keeps its whole past. -/
def ShiftReg.unbounded (w : ℕ) : ShiftReg w where
  State := ℕ → Bool
  step := shiftIn
  q bits a := bits a.toNat
  q_run bits inp t a := run_shiftIn bits inp t a.toNat

/-! ## Pipelines, tables and multipliers -/

/-- What a pipeline samples at one edge. -/
structure PipeIn (α : Type) where
  ce : Bool
  d : α

/-- **A pipeline of `k` registers**: enabled for `k` edges, it shows what it was given at the first
of them. -/
structure Pipe (α : Type) (k : ℕ) where
  /-- the registers inside the core -/
  State : Type
  step : State → PipeIn α → State
  q : State → α
  q_run : ∀ s inp t, (∀ x, t ≤ x → x < t + k → (inp x).ce = true) →
    q (run step s inp (t + k)) = (inp t).d

/-- One register. -/
def Pipe.one (α : Type) : Pipe α 1 where
  State := α
  step s i := if i.ce then i.d else s
  q s := s
  q_run s inp t h := by
    rw [run_succ, if_pos (h t le_rfl (by omega))]

/-- Two registers. -/
def Pipe.two (α : Type) : Pipe α 2 where
  State := α × α
  step s i := if i.ce then (i.d, s.1) else s
  q s := s.2
  q_run s inp t h := by
    rw [run_succ, if_pos (h (t + 1) (by omega) (by omega)), run_succ,
      if_pos (h t le_rfl (by omega))]

/-- **A table read in one clock**. -/
structure Rom (b w : ℕ) where
  /-- the registers inside the core -/
  State : Type
  step : State → BitVec b → State
  dout : State → BitVec w
  table : BitVec b → BitVec w
  dout_run : ∀ s inp t, dout (run step s inp (t + 1)) = table (inp t)

/-- The ROM with an output register. -/
def Rom.registered {b w : ℕ} (table : BitVec b → BitVec w) : Rom b w where
  State := BitVec w
  step _ a := table a
  dout s := s
  table := table
  dout_run _ _ _ := rfl

/-- What a multiplier samples at one edge. -/
structure MultiplierIn (m n : ℕ) where
  rst : Bool
  ce : Bool
  a : BitVec m
  b : BitVec n
  tag : Bool
  valid : Bool

/-- **A multiplier of latency `k`**: enabled and out of reset for `k` edges, it shows the product of
the operands of the first of them, with their tag and their valid. -/
structure Multiplier (m n r k : ℕ) where
  /-- the registers inside the core -/
  State : Type
  step : State → MultiplierIn m n → State
  p : State → BitVec r
  tag : State → Bool
  valid : State → Bool
  /-- the product, rounded to the width of the result -/
  mul : BitVec m → BitVec n → BitVec r
  out_run : ∀ s inp t, (∀ x, t ≤ x → x < t + k → (inp x).ce = true ∧ (inp x).rst = false) →
    p (run step s inp (t + k)) = mul (inp t).a (inp t).b ∧
      tag (run step s inp (t + k)) = (inp t).tag ∧ valid (run step s inp (t + k)) = (inp t).valid

/-- The multiplier that registers its operands, without enable or reset. -/
def Multiplier.registered {m n r : ℕ} (mul : BitVec m → BitVec n → BitVec r) :
    Multiplier m n r 1 where
  State := MultiplierIn m n
  step _ i := i
  p s := mul s.a s.b
  tag s := s.tag
  valid s := s.valid
  mul := mul
  out_run _ _ _ _ := ⟨rfl, rfl, rfl⟩

/-- The multiplier that registers its operands when it is enabled; its reset takes back the
valid. -/
def Multiplier.enabled {m n r : ℕ} (mul : BitVec m → BitVec n → BitVec r) :
    Multiplier m n r 1 where
  State := MultiplierIn m n
  step s i := if i.rst then { s with valid := false } else if i.ce then i else s
  p s := mul s.a s.b
  tag s := s.tag
  valid s := s.valid
  mul := mul
  out_run s inp t h := by
    obtain ⟨hce, hrst⟩ := h t le_rfl (by omega)
    simp [run_succ, hce, hrst]

/-! ## Signed comparison by carry and sign -/

/-- `m ≤ v`, from the carry of `v + ¬m + 1` when the signs agree and from the sign of `m` when
they differ. -/
def signedGe (carry vSign mSign : Bool) : Bool := if vSign == mSign then carry else mSign

/-- `v ≤ m`, from the carry of `¬v + m + 1` when the signs agree and from the sign of `v` when
they differ. -/
def signedLe (carry vSign mSign : Bool) : Bool := if vSign == mSign then carry else vSign

theorem signedGe_eq (v m : BitVec w) :
    signedGe (BitVec.carry w v (~~~m) true) v.msb m.msb = m.sle v := by
  rw [BitVec.sle_eq_carry, signedGe]
  -- the four sign combinations: equal signs leave the carry, different ones the sign of `m`
  by_cases hs : v.msb = m.msb
  · simp [hs]
  · have hv : v.msb = !m.msb := by
      cases hv : v.msb <;> cases hm : m.msb <;> simp_all
    rw [hv, ← BitVec.ule_eq_carry]
    -- among words of different signs the unsigned order is the reverse of the signed one
    have hu := BitVec.ule_eq_not_ult m v
    have hlt : v.ult m = m.msb := by
      rw [BitVec.ult_eq_msb_of_msb_neq (by simpa using hs)]
    cases hm : m.msb <;> simp_all

/-- The smaller comparator is the bigger one with its operands exchanged. -/
theorem signedLe_eq (v m : BitVec w) :
    signedLe (BitVec.carry w (~~~v) m true) v.msb m.msb = v.sle m := by
  have hc : BitVec.carry w (~~~v) m true = BitVec.carry w m (~~~v) true := by
    simp only [BitVec.carry, Nat.add_comm]
  rw [hc, ← signedGe_eq, signedLe, signedGe, BEq.comm]

/-- The carry of `v + ¬m + 1` alone compares without sign. -/
theorem carry_not_eq (v m : BitVec w) :
    BitVec.carry w v (~~~m) true = m.ule v :=
  (BitVec.ule_eq_carry m v).symm

/-- Among words of different signs the negative one is the smaller. -/
theorem sle_of_msb_ne {m v : BitVec w} (h : v.msb ≠ m.msb) : m.sle v = m.msb := by
  rw [← signedGe_eq, signedGe, if_neg (by simpa using h)]

/-- Among words of one sign the order without sign is the signed one. -/
theorem ule_of_msb_eq {m v : BitVec w} (h : v.msb = m.msb) : m.ule v = m.sle v := by
  simp [BitVec.sle_eq_ule, h]

/-- Among words of different signs it is the reverse. -/
theorem ule_of_msb_ne {m v : BitVec w} (h : v.msb ≠ m.msb) : m.ule v = !m.sle v := by
  have hne : (m.msb != v.msb) = true := by simpa using Ne.symm h
  simp [BitVec.sle_eq_ule, hne]

/-- **The bigger comparator with a foreign sign bit** is right if the bit happens to be the word's
own, or if the word has the sign of `m` and its verdict is that of the words across zero. -/
theorem signedGe_eq_sle_iff (v m : BitVec w) (b : Bool) :
    signedGe (BitVec.carry w v (~~~m) true) b m.msb = m.sle v ↔
      b = v.msb ∨ (v.msb = m.msb ∧ m.sle v = m.msb) := by
  by_cases hb : b = v.msb
  · simp [hb, signedGe_eq]
  · rw [or_iff_right hb, signedGe, carry_not_eq]
    by_cases hs : v.msb = m.msb
    · rw [if_neg (by simpa [← hs] using hb), and_iff_right hs, eq_comm]
    · -- the foreign bit hides that the signs differ, and the carry alone is the wrong way round
      have hbm : b = m.msb := by
        cases b <;> cases hv : v.msb <;> cases hm : m.msb <;> simp_all
      rw [if_pos (by simpa using hbm), ule_of_msb_ne hs]
      simp [hs]

/-- The smaller comparator with a foreign sign bit. -/
theorem signedLe_eq_sle_iff (v m : BitVec w) (b : Bool) :
    signedLe (BitVec.carry w (~~~v) m true) b m.msb = v.sle m ↔
      b = v.msb ∨ (v.msb = m.msb ∧ v.sle m = !m.msb) := by
  have hc : BitVec.carry w (~~~v) m true = v.ule m := by
    rw [← carry_not_eq]
    simp only [BitVec.carry, Nat.add_comm]
  by_cases hb : b = v.msb
  · simp [hb, signedLe_eq]
  · rw [or_iff_right hb, signedLe, hc]
    by_cases hs : v.msb = m.msb
    · have hbm : b = !m.msb := by
        cases b <;> cases hv : v.msb <;> cases hm : m.msb <;> simp_all
      rw [if_neg (by simp [hbm]), and_iff_right hs, hbm, eq_comm]
    · have hbm : b = m.msb := by
        cases b <;> cases hv : v.msb <;> cases hm : m.msb <;> simp_all
      rw [if_pos (by simpa using hbm), ule_of_msb_ne (Ne.symm hs)]
      simp [hs]

end Clocked
