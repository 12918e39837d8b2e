import BpmGateware.Clocked.Stretch
import BpmGateware.Mixer.Pairing

/-!
# The clock enable of the mixer

A mixer behind a slower ADC is enabled in some of its cycles only. The sweep, the pipelines and the
multipliers take the enable; the tables have no port for it and are read in every clock. In a cycle
without enable a table therefore already reads the address that the sweep has just moved to, while
the sample of that address is still on its way: the sample before it meets the next point.

So a slowed run is the original one exactly as far as the tables do not notice: where cycles are
inserted, the two points between which the sweep has just moved must have the same cosine and sine.

## Main definitions

* `Parts.Gated`: the cores with an enable hold while they are not enabled
* `State.operands`: what the multipliers sample
* `point N a inp t`: the address of the sweep, by counting samples
* `Undisturbed`: the inserted cycles under which the operands stay the same

## Main results

* `address_eq_point`: the address of the sweep in a run with any enables and resets
* `operands_stretch_iff`: which slowed runs give the multipliers the same operands
* `enable_transparent_iff`: the same without inserted resets, and the outputs
-/

namespace Mixer

open Clocked

variable {b c w r l N : ℕ} {P : Parts b c w r l}

/-! ## Cores with an enable -/

/-- The pipelines and the multipliers keep their registers while they are not enabled. -/
structure Parts.Gated (P : Parts b c w r l) : Prop where
  pipeValid : ∀ s i, i.ce = false → P.pipeValid.step s i = s
  pipeTag : ∀ s i, i.ce = false → P.pipeTag.step s i = s
  pipeSignal : ∀ s i, i.ce = false → P.pipeSignal.step s i = s
  mult : ∀ s i, i.ce = false → i.rst = false → P.mult.step s i = s

/-- What the multipliers sample: `signal_d2`, `cos`, `sin`, `fixed_dds_tag` and
`fixed_dds_valid`. -/
def State.operands (s : State P) : BitVec c × BitVec w × BitVec w × Bool × Bool :=
  (s.signalD2, s.cos, s.sin, s.fixedDdsTag, s.fixedDdsValid)

/-! ## The sweep under any enable -/

/-- The address of the sweep in cycle `t`, from the address `a` at power-up: the last enabled edge
out of reset put there the number of the last sample that counted since the reset before it, modulo
`N`, and the last point if there was none. -/
def point (N : ℕ) (a : BitVec b) (inp : ℕ → Input c) (t : ℕ) : BitVec b :=
  (latest (fun x => (inp x).ce && !(inp x).rst) t).elim a fun x =>
    BitVec.ofNat b ((sinceReset (fun y => (inp y).gated) (x + 1) + (N - 1)) % N)

section Sweep

variable {s : State P} {inp : ℕ → Input c}

/-- **The address of the sweep** under any enables and resets. -/
theorem address_eq_point (hs : s.dds.sweep.vSampleIdx + 1 = N) (t : ℕ) :
    (run (step N) s inp t).dds.sweep.address = point N s.dds.sweep.address inp t := by
  induction t with
  | zero => rfl
  | succ t ih =>
    unfold point at ih ⊢
    rw [latest_succ]
    cases hr : (inp t).rst with
    | true => simp [sweep_of_rst hr, ih]
    | false =>
      cases hce : (inp t).ce with
      | true =>
        have hidx : (run (step N) s inp (t + 1)).dds.sweep.vSampleIdx = _ :=
          vSampleIdx_gated hs (t + 1)
        rw [sweep_of_ce hr hce] at hidx ⊢
        simp [← hidx]
      | false => simp [sweep_of_not_ce hr hce, ih]

end Sweep

/-! ## From one enabled edge to the next -/

section Next

variable (s : State P) {inp : ℕ → Input c} {u x : ℕ} (hux : u < x) (hon : (inp u).ce = true)
  (hoff : ∀ y, u < y → y < x → (inp y).ce = false)

include hux hon hoff

theorem fixedDdsValid_next (hg : P.Gated) :
    (run (step N) s inp x).fixedDdsValid = (run (step N) s inp u).dds.sweep.valid := by
  unfold State.fixedDdsValid
  have hgap : (run (step N) s inp x).dds.pipeValid =
      (run (step N) s inp (u + 1)).dds.pipeValid := by
    apply hold_between (g := fun y => (run (step N) s inp y).dds.pipeValid) hux
    intro y hy hy'
    exact hg.pipeValid _ _ (hoff y hy hy')
  rw [hgap, run_proj (fun s : State P => s.dds.pipeValid)
    (fun s (i : Input c) => (⟨i.ce, s.dds.sweep.valid⟩ : PipeIn Bool)) (fun _ _ => rfl),
    P.pipeValid.q_run _ _ u]
  intro y hy hy'
  obtain rfl : y = u := by omega
  exact hon

/-- A sample of an enabled edge is valid in the sweep until a reset. -/
theorem sweepValid_next :
    (run (step N) s inp x).dds.sweep.valid = true ↔
      (inp u).valid = true ∧ (inp u).rst = false ∧
        ∀ y, u < y → y < x → (inp y).rst = false := by
  induction x, hux using Nat.le_induction with
  | base =>
    have hnone : ∀ y, u < y → y < u + 1 → (inp y).rst = false := by
      intro y hy hy'
      omega
    cases hr : (inp u).rst with
    | true => simp [sweep_of_rst hr]
    | false =>
      rw [sweep_of_ce hr hon]
      exact ⟨fun hv => ⟨hv, rfl, hnone⟩, fun h => h.1⟩
  | succ x hux ih =>
    have ih := ih fun y hy hy' => hoff y hy (by omega)
    cases hr : (inp x).rst with
    | true =>
      rw [sweep_of_rst hr]
      simp only [Bool.false_eq_true, false_iff]
      rintro ⟨-, -, hno⟩
      simp [hno x hux (by omega)] at hr
    | false =>
      rw [sweep_of_not_ce hr (hoff x hux (by omega)), ih]
      refine and_congr_right fun _ => and_congr_right fun _ => ⟨?_, ?_⟩
      · intro hno y hy hy'
        rcases Nat.lt_or_ge y x with hlt | hge
        · exact hno y hy hlt
        · rwa [show y = x by omega]
      · exact fun hno y hy hy' => hno y hy (by omega)

end Next

/-! ## Slowed runs -/

/-- Two points with the same cosine and the same sine. -/
def Parts.SamePoint (P : Parts b c w r l) (x y : BitVec b) : Prop :=
  P.cosLut.table x = P.cosLut.table y ∧ P.sinLut.table x = P.sinLut.table y

/-- **Inserted cycles that the multipliers do not notice**, in terms of the inputs: a reset among
them finds no valid sample in the sweep, and in the last cycle before each enabled edge the sweep is
at a point with the cosine and the sine of the original one. -/
structure Undisturbed (P : Parts b c w r l) (N : ℕ) (a : BitVec b) (inp inp' : ℕ → Input c)
    (e : ℕ → ℕ) : Prop where
  reset : ∀ n x, e n < x → x < e (n + 1) → (inp' x).rst = true →
    ¬ ((inp n).valid = true ∧ (inp n).rst = false)
  point : ∀ n, P.SamePoint (point N a inp' (e (n + 1) - 1)) (point N a inp n)

section Slowed

variable {s : State P} {inp inp' : ℕ → Input c} {e : ℕ → ℕ} (hg : P.Gated)
  (h : Stretch (fun i : Input c => i.ce) inp inp' e) (hce : ∀ n, (inp n).ce = true)

theorem cos_of_pos (hs : s.dds.sweep.vSampleIdx + 1 = N) {t : ℕ} (ht : 0 < t) :
    (run (step N) s inp t).cos =
      P.cosLut.table (point N s.dds.sweep.address inp (t - 1)) := by
  obtain ⟨t, rfl⟩ := Nat.exists_eq_succ_of_ne_zero ht.ne'
  rw [cos_run, address_eq_point hs, Nat.succ_sub_one]

theorem sin_of_pos (hs : s.dds.sweep.vSampleIdx + 1 = N) {t : ℕ} (ht : 0 < t) :
    (run (step N) s inp t).sin =
      P.sinLut.table (point N s.dds.sweep.address inp (t - 1)) := by
  obtain ⟨t, rfl⟩ := Nat.exists_eq_succ_of_ne_zero ht.ne'
  rw [sin_run, address_eq_point hs, Nat.succ_sub_one]

include h

theorem pos_succ (n : ℕ) : 0 < e (n + 1) := lt_of_le_of_lt (Nat.zero_le _) (h.lt_succ n)

include hg in
theorem signalD2_stretch (n : ℕ) :
    (run (step N) s inp' (e n)).signalD2 = (run (step N) s inp n).signalD2 := by
  unfold State.signalD2
  rw [h.proj_run (fun s : State P => s.pipeSignal)
    (fun _ (i : Input c) => (⟨i.ce, i.signal⟩ : PipeIn (BitVec c))) (fun _ _ => rfl)
    (fun _ _ _ hoff => hg.pipeSignal _ _ hoff) (fun _ _ => rfl)]

include hg in
theorem fixedDdsTag_stretch (n : ℕ) :
    (run (step N) s inp' (e n)).fixedDdsTag = (run (step N) s inp n).fixedDdsTag := by
  unfold State.fixedDdsTag
  rw [h.proj_run (fun s : State P => s.dds.pipeTag)
    (fun _ (i : Input c) => (⟨i.ce, i.tag⟩ : PipeIn Bool)) (fun _ _ => rfl)
    (fun _ _ _ hoff => hg.pipeTag _ _ hoff) (fun _ _ => rfl)]

include hce

include hg in
/-- Both valids of the multipliers are those of the sweep at the enabled edge before. -/
theorem fixedDdsValid_stretch_iff (n : ℕ) :
    (run (step N) s inp' (e (n + 1))).fixedDdsValid =
        (run (step N) s inp (n + 1)).fixedDdsValid ↔
      (run (step N) s inp' (e n)).dds.sweep.valid =
        (run (step N) s inp n).dds.sweep.valid := by
  have hon : (inp' (e n)).ce = true := by rw [h.same, hce]
  rw [fixedDdsValid_next s (h.lt_succ n) hon (h.off n) hg,
    fixedDdsValid_next s (Nat.lt_succ_self n) (hce n) (fun y hy hy' => by omega) hg]

/-- The sweep is as valid as in the original run unless an inserted reset has cleared it. -/
theorem sweepValid_stretch_iff (n : ℕ) :
    (run (step N) s inp' (e (n + 1))).dds.sweep.valid =
        (run (step N) s inp (n + 1)).dds.sweep.valid ↔
      ∀ x, e n < x → x < e (n + 1) → (inp' x).rst = true →
        ¬ ((inp n).valid = true ∧ (inp n).rst = false) := by
  have hon : (inp' (e n)).ce = true := by rw [h.same, hce]
  rw [Bool.eq_iff_iff, sweepValid_next s (h.lt_succ n) hon (h.off n),
    sweepValid_next s (Nat.lt_succ_self n) (hce n) (fun y hy hy' => by omega), h.same]
  constructor
  · intro hiff x hx hx' hr hv
    obtain ⟨-, -, hno⟩ := hiff.mpr ⟨hv.1, hv.2, fun y hy hy' => by omega⟩
    simp [hno x hx hx'] at hr
  · intro hno
    refine and_congr_right fun hv => and_congr_right fun hr => ⟨?_, ?_⟩
    · exact fun _ y hy hy' => by omega
    · intro _ x hx hx'
      by_contra hrx
      exact hno x hx hx' (by simpa using hrx) ⟨hv, hr⟩

include hg in
/-- **The slowed runs with the operands of the original one**. -/
theorem operands_stretch_iff (hs : s.dds.sweep.vSampleIdx + 1 = N) :
    (∀ n, (run (step N) s inp' (e n)).operands = (run (step N) s inp n).operands) ↔
      Undisturbed P N s.dds.sweep.address inp inp' e := by
  simp only [State.operands, Prod.mk.injEq]
  constructor
  · intro hall
    refine ⟨?_, ?_⟩
    · intro n
      obtain ⟨-, -, -, -, hv⟩ := hall (n + 2)
      rw [fixedDdsValid_stretch_iff hg h hce] at hv
      exact (sweepValid_stretch_iff h hce n).mp hv
    · intro n
      obtain ⟨-, hcos, hsin, -, -⟩ := hall (n + 1)
      rw [cos_of_pos hs (pos_succ h n), cos_of_pos hs n.succ_pos] at hcos
      rw [sin_of_pos hs (pos_succ h n), sin_of_pos hs n.succ_pos] at hsin
      exact ⟨hcos, hsin⟩
  · intro hun n
    refine ⟨signalD2_stretch hg h n, ?_, ?_, fixedDdsTag_stretch hg h n, ?_⟩
    · cases n with
      | zero => rw [h.start]; rfl
      | succ n =>
        rw [cos_of_pos hs (pos_succ h n), cos_of_pos hs n.succ_pos]
        exact (hun.point n).1
    · cases n with
      | zero => rw [h.start]; rfl
      | succ n =>
        rw [sin_of_pos hs (pos_succ h n), sin_of_pos hs n.succ_pos]
        exact (hun.point n).2
    · cases n with
      | zero => rw [h.start]; rfl
      | succ n =>
        rw [fixedDdsValid_stretch_iff hg h hce]
        cases n with
        | zero => rw [h.start]; rfl
        | succ n => exact (sweepValid_stretch_iff h hce n).mpr (hun.reset n)

end Slowed

/-! ## Without inserted resets -/

section Idle

variable {s : State P} {inp inp' : ℕ → Input c} {e : ℕ → ℕ}
  (h : Stretch (fun i : Input c => i.ce || i.rst) inp inp' e)

include h

theorem sweep_stretch (n : ℕ) :
    (run (step N) s inp' (e n)).dds.sweep = (run (step N) s inp n).dds.sweep := by
  have hstep : ∀ (s : State P) (i : Input c),
      (step N s i).dds.sweep = lutSweepStep N s.dds.sweep i.toDdsIn := fun _ _ => rfl
  refine h.proj_run (fun s : State P => s.dds.sweep) (fun _ (i : Input c) => i.toDdsIn) hstep ?_
    (fun _ _ => rfl)
  intro c s i hoff
  simp only [Bool.or_eq_false_iff] at hoff
  simp [lutSweepStep, hoff.1, hoff.2]

/-- Before the next enabled edge the sweep of the slowed run is where the original one was, or, if a
cycle lies between them, where the original one goes. -/
theorem point_stretch (hs : s.dds.sweep.vSampleIdx + 1 = N) (n : ℕ) :
    point N s.dds.sweep.address inp' (e (n + 1) - 1) =
      point N s.dds.sweep.address inp (if e n + 1 < e (n + 1) then n + 1 else n) := by
  have hlt := h.lt_succ n
  rw [← address_eq_point hs, ← address_eq_point hs]
  by_cases hgap : e n + 1 < e (n + 1)
  · have hoff := h.off n (e (n + 1) - 1) (by omega) (by omega)
    simp only [Bool.or_eq_false_iff] at hoff
    have hlast := sweep_of_not_ce (N := N) (s := s) hoff.2 hoff.1
    rw [Nat.sub_add_cancel (by omega), sweep_stretch h] at hlast
    rw [if_pos hgap, ← hlast]
  · rw [if_neg hgap, show e (n + 1) - 1 = e n by omega, sweep_stretch h]

theorem undisturbed_iff (hs : s.dds.sweep.vSampleIdx + 1 = N) :
    Undisturbed P N s.dds.sweep.address inp inp' e ↔
      ∀ n, e n + 1 < e (n + 1) → P.SamePoint (point N s.dds.sweep.address inp (n + 1))
        (point N s.dds.sweep.address inp n) := by
  constructor
  · intro hun n hgap
    have hpoint := hun.point n
    rwa [point_stretch h hs, if_pos hgap] at hpoint
  · intro hsame
    refine ⟨?_, ?_⟩
    · intro n x hx hx' hr
      have hoff := h.off n x hx hx'
      simp [hr] at hoff
    · intro n
      rw [point_stretch h hs]
      by_cases hgap : e n + 1 < e (n + 1)
      · rw [if_pos hgap]
        exact hsame n hgap
      · rw [if_neg hgap]
        exact ⟨rfl, rfl⟩

/-- The same operands give the same products. -/
theorem outputs_stretch (hg : P.Gated)
    (hops : ∀ n, (run (step N) s inp' (e n)).operands = (run (step N) s inp n).operands) (n : ℕ) :
    (run (step N) s inp' (e n)).multI = (run (step N) s inp n).multI ∧
      (run (step N) s inp' (e n)).multQ = (run (step N) s inp n).multQ := by
  simp only [State.operands, Prod.mk.injEq] at hops
  have hhold : ∀ (c' : P.mult.State) (i : MultiplierIn c w), (i.ce || i.rst) = false →
      P.mult.step c' i = c' := by
    intro c' i hoff
    simp only [Bool.or_eq_false_iff] at hoff
    exact hg.mult c' i hoff.1 hoff.2
  constructor
  · refine h.proj_run (fun s : State P => s.multI) (fun s i => s.multIIn i) (fun _ _ => rfl)
      (fun c' _ _ hoff => hhold c' _ hoff) ?_
    intro m _
    obtain ⟨hsig, hcos, -, htag, hval⟩ := hops m
    simp only [State.multIIn, hsig, hcos, htag, hval]
  · refine h.proj_run (fun s : State P => s.multQ) (fun s i => s.multQIn i) (fun _ _ => rfl)
      (fun c' _ _ hoff => hhold c' _ hoff) ?_
    intro m _
    obtain ⟨hsig, -, hsin, htag, hval⟩ := hops m
    simp only [State.multQIn, hsig, hsin, htag, hval]

end Idle

/-! ## Transparency of the enable -/

/-- The outputs of the mixer. -/
def State.outputs (s : State P) : BitVec r × BitVec r × Bool × Bool × Bool :=
  (s.iO, s.qO, s.validO, s.iTagO, s.qTagO)

/-- **When the clock enable is transparent**. A run from power-up, or from a reset, that is enabled
in every cycle is slowed by cycles without enable, with any inputs in them. The operands of the
multipliers at the enabled edges are those of the original run just if the inserted cycles are
undisturbed. Without resets among them this means: each cycle is inserted where the sweep has just
gone to a point with the same cosine and sine as the one before; and then the outputs are the same
as well. -/
theorem enable_transparent_iff (hg : P.Gated) (s : State P) (hs : s.dds.sweep.vSampleIdx + 1 = N)
    {inp inp' : ℕ → Input c} {e : ℕ → ℕ} (hce : ∀ n, (inp n).ce = true)
    (h : Stretch (fun i : Input c => i.ce) inp inp' e) :
    ((∀ n, (run (step N) s inp' (e n)).operands = (run (step N) s inp n).operands) ↔
      Undisturbed P N s.dds.sweep.address inp inp' e) ∧
    ((∀ n x, e n < x → x < e (n + 1) → (inp' x).rst = false) →
      ((∀ n, (run (step N) s inp' (e n)).operands = (run (step N) s inp n).operands) ↔
        ∀ n, e n + 1 < e (n + 1) → P.SamePoint (point N s.dds.sweep.address inp (n + 1))
          (point N s.dds.sweep.address inp n)) ∧
      ((∀ n, (run (step N) s inp' (e n)).operands = (run (step N) s inp n).operands) →
        ∀ n, (run (step N) s inp' (e n)).outputs = (run (step N) s inp n).outputs)) := by
  have hall := operands_stretch_iff hg h hce hs
  refine ⟨hall, ?_⟩
  intro hrst
  have hidle : Stretch (fun i : Input c => i.ce || i.rst) inp inp' e := by
    refine ⟨h.start, h.lt_succ, h.same, ?_⟩
    intro n x hx hx'
    simp [h.off n x hx hx', hrst n x hx hx']
  refine ⟨hall.trans (undisturbed_iff hidle hs), ?_⟩
  intro hops n
  obtain ⟨hI, hQ⟩ := outputs_stretch hidle hg hops n
  simp only [State.outputs, State.iO, State.qO, State.validO, State.iTagO, State.qTagO, hI, hQ]

/-- The cores of a mixer over two points, with a multiplier that takes the enable. -/
def gatedPoints : Parts 1 8 8 8 1 := { twoPoints with mult := Multiplier.enabled fun x y => x * y }

theorem gatedPoints_gated : gatedPoints.Gated where
  pipeValid s i hoff := if_neg (by simp [hoff])
  pipeTag s i hoff := if_neg (by simp [hoff])
  pipeSignal s i hoff := if_neg (by simp [hoff])
  mult s i hoff hrst := (if_neg (by simp [hrst])).trans (if_neg (by simp [hoff]))

/-- That mixer at power-up. -/
def gatedFresh : State gatedPoints where
  dds := ⟨⟨1, 0, false⟩, (0 : BitVec 8), (0 : BitVec 8), false, (false, false)⟩
  pipeSignal := ((0 : BitVec 8), (0 : BitVec 8))
  multI := (⟨false, false, 0, 0, false, false⟩ : MultiplierIn 8 8)
  multQ := (⟨false, false, 0, 0, false, false⟩ : MultiplierIn 8 8)

/-- The samples `0, 1, 2, …`, enabled in every cycle; `v` says which of them are valid. -/
def samples (v : ℕ → Bool) (t : ℕ) : Input 8 := ⟨⟨false, true, v t, false⟩, BitVec.ofNat 8 t⟩

/-- One cycle without enable between the samples `1` and `2`. -/
def pauseAtTwo (inp : ℕ → Input 8) (t : ℕ) : Input 8 :=
  if t < 2 then inp t else if t = 2 then { inp 2 with ce := false } else inp (t - 1)

/-- The edges of the samples around that cycle. -/
def aroundTwo (n : ℕ) : ℕ := if n < 2 then n else n + 1

theorem pauseAtTwo_stretch (inp : ℕ → Input 8) :
    Stretch (fun i : Input 8 => i.ce) inp (pauseAtTwo inp) aroundTwo where
  start := rfl
  lt_succ n := by
    unfold aroundTwo
    split_ifs <;> omega
  same n := by
    unfold pauseAtTwo aroundTwo
    by_cases hn : n < 2
    · simp [hn]
    · simp [hn, show ¬ n + 1 < 2 by omega, show n ≠ 1 by omega]
  off n x hx hx' := by
    obtain rfl : x = 2 := by
      unfold aroundTwo at hx hx'
      split_ifs at hx hx' <;> omega
    rfl

/-- A pause after an invalid sample goes unnoticed. -/
theorem pause_unnoticed :
    aroundTwo 1 + 1 < aroundTwo 2 ∧
      ∀ n, (run (step 2) gatedFresh (pauseAtTwo (samples fun t => t != 1)) (aroundTwo n)).outputs =
        (run (step 2) gatedFresh (samples fun t => t != 1) n).outputs := by
  refine ⟨by decide, ?_⟩
  obtain ⟨-, hidle⟩ := enable_transparent_iff gatedPoints_gated gatedFresh (N := 2) rfl
    (fun _ => rfl) (pauseAtTwo_stretch (samples fun t => t != 1))
  obtain ⟨hiff, hout⟩ := hidle (by
    intro n x hx hx'
    unfold pauseAtTwo
    split_ifs <;> rfl)
  apply hout
  rw [hiff]
  intro n hgap
  obtain rfl : n = 1 := by
    unfold aroundTwo at hgap
    split_ifs at hgap <;> omega
  exact ⟨by decide, by decide⟩

/-- **The pause after a valid sample**: the sample before it, still on its way, meets the sine and
the cosine of the next point. -/
theorem pause_next_point :
    gatedPoints.Gated ∧
      Stretch (fun i : Input 8 => i.ce) (samples fun _ => true) (pauseAtTwo (samples fun _ => true))
        aroundTwo ∧
      (run (step 2) gatedFresh (samples fun _ => true) 2).operands = (0, 1, 0, false, true) ∧
      (run (step 2) gatedFresh (pauseAtTwo (samples fun _ => true)) (aroundTwo 2)).operands =
        (0, 0, 1, false, true) ∧
      ¬ ∀ n, (run (step 2) gatedFresh (pauseAtTwo (samples fun _ => true)) (aroundTwo n)).operands =
        (run (step 2) gatedFresh (samples fun _ => true) n).operands := by
  refine ⟨gatedPoints_gated, pauseAtTwo_stretch _, by decide, by decide, ?_⟩
  intro hsame
  exact absurd (hsame 2) (by decide)

end Mixer
