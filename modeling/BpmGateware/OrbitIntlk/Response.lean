import BpmGateware.Clocked.Join
import BpmGateware.OrbitIntlk.Cdc
import BpmGateware.OrbitIntlk.Trip

/-!
# The response of the orbit interlock

`orbit_intlk` as a whole: the samples of the two monitors cross to `ref_clk` in `orbit_intlk_cdc`,
whose outputs are the inputs of the detectors and the latch. The interlock has to act on the orbit,
so what counts is the time from the two monitors having written a pair of samples to the latch.

## Main definitions

* `Intlk.step`: one `ref_clk` cycle of `orbit_intlk` with its crossing
* `samples inp b t`: what monitor `b` has written before cycle `t`
* `Timely q inp lat`: what the two streams and the FIFOs keep to

## Main results

* `Timely.aligned`: no FIFO overflows, and all of them hold the samples that are not read
* `trip_in_time`: a pair out of limits raises the latch a bounded number of cycles after it is
  complete
* `trip_of_pair`: the latch is up only if samples of the same number were out of limits
-/

namespace OrbitIntlk

open Clocked

variable {w : ℕ}

/-! ## The interlock with its crossing -/

/-- What reaches `orbit_intlk` in one cycle of `ref_clk`: the samples each monitor writes before the
edge, the words that become visible in each FIFO at the edge, and the ports of the `ref_clk`
domain. -/
structure CycleIn (w : ℕ) where
  writes : Bpm → List (Sample w)
  shown : Bpm → Chan → ℕ
  rstN : Bool
  cfg : Config w
  clr : Bool
  transClr : Bool
  angClr : Bool

/-- One monitor writes some samples. -/
def Cdc.writes (s : Cdc w) (b : Bpm) (l : List (Sample w)) : Cdc w :=
  l.foldl (fun s p => cdcStep s (.write b p)) s

/-- One `ref_clk` cycle of the crossing. The monitors write into FIFOs of their own, so that only
the order of the samples of one monitor counts. -/
def Cdc.cycle (s : Cdc w) (i : CycleIn w) : Cdc w :=
  cdcStep ((s.writes .ds (i.writes .ds)).writes .us (i.writes .us)) (.edge i.shown)

/-- The inputs of the detectors and the latch: the outputs of the crossing, and the ports. -/
def coreIn (s : Cdc w) (i : CycleIn w) : Input w where
  rstN := i.rstN
  cfg := i.cfg
  clr := i.clr
  transClr := i.transClr
  angClr := i.angClr
  ds := s.out.ds
  us := s.out.us
  dsValid := s.out.dsValid
  usValid := s.out.usValid

variable (A : GcBigAdder2 w)

/-- The registers of `orbit_intlk`. -/
structure Intlk where
  cdc : Cdc w
  core : State A

variable {A}

/-- **One `ref_clk` cycle of `orbit_intlk`**. -/
def Intlk.step (s : Intlk A) (i : CycleIn w) : Intlk A where
  cdc := s.cdc.cycle i
  core := OrbitIntlk.step s.core (coreIn s.cdc i)

/-! ## One cycle of the crossing -/

theorem Cdc.ready_writes (s : Cdc w) (b : Bpm) (l : List (Sample w)) (b' : Bpm) (c : Chan) :
    (s.writes b l b' c).fifo.ready = (s b' c).fifo.ready := by
  unfold Cdc.writes
  induction l generalizing s with
  | nil => rfl
  | cons p l ih =>
    rw [List.foldl_cons, ih]
    simp only [cdcStep, AsyncFifo.push]
    split_ifs with hb hfull
    · rw [hb]
    · rw [hb]
    · rfl

/-- A write does not make the FIFO less empty at the read side. -/
theorem Cdc.isEmpty_writes (s : Cdc w) (b : Bpm) (l : List (Sample w)) (b' : Bpm) (c : Chan) :
    (s.writes b l b' c).fifo.isEmpty = (s b' c).fifo.isEmpty := by
  rw [AsyncFifo.isEmpty, AsyncFifo.isEmpty, s.ready_writes]

theorem Cdc.rd_writes (s : Cdc w) (b : Bpm) (l : List (Sample w)) : (s.writes b l).rd = s.rd := by
  rw [Cdc.rd, Cdc.rd, s.isEmpty_writes, s.isEmpty_writes]

/-- Samples that find room are appended. -/
theorem Aligned.writes {s : Cdc w} {p : Bpm → List (Sample w)} (h : Aligned s p) {b : Bpm}
    {l : List (Sample w)} (hroom : (p b).length + l.length ≤ cdcRefSize) :
    Aligned (s.writes b l) fun b' => if b' = b then p b ++ l else p b' := by
  unfold Cdc.writes
  induction l generalizing s p with
  | nil =>
    intro b' c
    by_cases hb : b' = b
    · subst hb
      simpa using h b' c
    · simpa [hb] using h b' c
  | cons x l ih =>
    rw [List.length_cons] at hroom
    have hok : WriteOk s (.write b x) := by
      intro c hfull
      rw [AsyncFifo.Full, h b c, List.length_map] at hfull
      omega
    have hnext := ih (h.write hok) (by simp; omega)
    intro b' c
    rw [List.foldl_cons, hnext b' c]
    by_cases hb : b' = b
    · simp [hb]
    · simp [hb]

/-- **One cycle of the crossing**: the samples written are appended, and a strobe takes the oldest
of each monitor to the outputs. -/
theorem Aligned.cycle {s : Cdc w} {p : Bpm → List (Sample w)} (h : Aligned s p) {i : CycleIn w}
    (hroom : ∀ b, (p b).length + (i.writes b).length ≤ cdcRefSize)
    (hok : s.rd = true → ∀ b c, (s b c).fifo.isEmpty = false) :
    Aligned (s.cycle i) (fun b => (p b ++ i.writes b).drop (if s.rd then 1 else 0)) ∧
      (s.rd = true → ∀ b, (p b ++ i.writes b).head? = some ((s.cycle i).sample b)) := by
  have hboth : Aligned ((s.writes .ds (i.writes .ds)).writes .us (i.writes .us))
      fun b => p b ++ i.writes b := by
    intro b c
    rw [(h.writes (hroom .ds)).writes (by simpa using hroom .us) b c]
    cases b
    · rfl
    · rfl
  have hrd : ((s.writes .ds (i.writes .ds)).writes .us (i.writes .us)).rd = s.rd := by
    rw [Cdc.rd_writes, Cdc.rd_writes]
  by_cases hs : s.rd = true
  · have hfull : StrobeOk ((s.writes .ds (i.writes .ds)).writes .us (i.writes .us))
        (.edge i.shown) := by
      intro _ b c
      rw [Cdc.isEmpty_writes, Cdc.isEmpty_writes]
      exact hok hs b c
    obtain ⟨r, hr, hp⟩ := hboth.read (hrd.trans hs) hfull
    rw [if_pos hs]
    constructor
    · intro b c
      beta_reduce
      rw [hp b]
      exact hr b c
    · intro _ b
      rw [hp b]
      rfl
  · rw [if_neg hs]
    simp only [List.drop_zero]
    exact ⟨hboth.idle (hrd.trans (by simpa using hs)) i.shown, fun h' => absurd h' hs⟩

/-! ## Runs of the crossing -/

section Runs

variable (q : Bpm → Chan → BitVec w) (inp : ℕ → CycleIn w)

/-- The samples that monitor `b` writes before cycle `t`. -/
def samples (b : Bpm) : ℕ → List (Sample w)
  | 0 => []
  | t + 1 => samples b t ++ (inp t).writes b

/-- How many these are. -/
def writeCount (b : Bpm) (t : ℕ) : ℕ := (samples inp b t).length

/-- The crossing from power-up on. -/
def cdcRun (t : ℕ) : Cdc w := run Cdc.cycle (Cdc.powerUp q) inp t

/-- The strobe of cycle `t`. -/
def strobe (t : ℕ) : Bool := (cdcRun q inp t).rd

/-- The samples that monitor `b` has in view of the strobe: those not on their way to the read side
of its channel-0 FIFO. -/
def visCount (b : Bpm) (t : ℕ) : ℕ :=
  writeCount inp b t - (cdcRun q inp t b .x).fifo.pending.length

/-- **What the streams and the FIFOs keep to**: pairs of samples become complete at least `8 + lat`
cycles apart, no monitor gets as many samples ahead of the other as the FIFOs hold, the channel-0
FIFOs show a word at most `lat` cycles after its write, and a strobe finds all FIFOs filled. -/
structure Timely (lat : ℕ) : Prop where
  paced : Paced (8 + lat) (writeCount inp)
  skew : ∀ b b' t, writeCount inp b t < writeCount inp b' t + cdcRefSize
  within : ∀ b t, writeCount inp b t ≤ visCount q inp b (t + lat)
  filled : ∀ t, strobe q inp t = true → ∀ b c, (cdcRun q inp t b c).fifo.isEmpty = false

theorem writeCount_succ (b : Bpm) (t : ℕ) :
    writeCount inp b (t + 1) = writeCount inp b t + ((inp t).writes b).length := by
  rw [writeCount, samples, List.length_append, writeCount]

theorem writeCount_mono (b : Bpm) : Monotone (writeCount inp b) := by
  apply monotone_nat_of_le_succ
  intro t
  rw [writeCount_succ]
  exact Nat.le_add_right _ _

/-- A sample keeps its number. -/
theorem samples_mono (b : Bpm) {t t' : ℕ} (h : t ≤ t') :
    samples inp b t <+: samples inp b t' := by
  induction t', h using Nat.le_induction with
  | base => exact List.prefix_rfl
  | succ t' _ ih => exact ih.trans (List.prefix_append _ _)

variable {q inp}

theorem cdcRun_succ (t : ℕ) : cdcRun q inp (t + 1) = (cdcRun q inp t).cycle (inp t) := rfl

/-- FIFOs that hold the samples not yet read give a strobe exactly when both monitors have a sample
in view. -/
theorem strobe_iff {t n : ℕ}
    (h : Aligned (cdcRun q inp t) fun b => (samples inp b t).drop n) :
    strobe q inp t = true ↔ Complete (visCount q inp) n t := by
  rw [strobe, Cdc.rd_eq_true]
  refine forall_congr' fun b => ?_
  have hlen : (cdcRun q inp t b .x).fifo.ready.length +
      (cdcRun q inp t b .x).fifo.pending.length = writeCount inp b t - n := by
    have := congrArg List.length (h b .x)
    simpa [AsyncFifo.contents, writeCount] using this
  rw [AsyncFifo.isEmpty, List.isEmpty_eq_false_iff, ← List.length_pos_iff, visCount]
  omega

namespace Timely

variable {lat : ℕ}

theorem shown (h : Timely q inp lat) : Shown lat (writeCount inp) (visCount q inp) :=
  ⟨fun _ _ => Nat.sub_le _ _, h.within⟩

/-- If everything up to now was read when it was in view, the writes of this cycle find room. -/
theorem room_of (h : Timely q inp lat) {t : ℕ}
    (hread : ReadTogether (visCount q inp) (strobe q inp) t)
    (hle : ∀ b, edges (strobe q inp) t ≤ writeCount inp b t) (b : Bpm) :
    ((samples inp b t).drop (edges (strobe q inp) t)).length + ((inp t).writes b).length ≤
      cdcRefSize := by
  obtain ⟨b', hb'⟩ := not_forall.mp (h.paced.room (by omega) h.shown hread)
  have hskew := h.skew b b' (t + 1)
  have hlen := hle b
  rw [writeCount_succ] at hskew
  rw [List.length_drop, ← writeCount]
  simp only [cdcRefSize] at hskew ⊢
  omega

/-- **The FIFOs hold the samples that are not read**, and there is always room for the next ones. By
induction: up to now all was read in time, so the writes of this cycle find room. -/
theorem aligned (h : Timely q inp lat) (t : ℕ) :
    Aligned (cdcRun q inp t) (fun b => (samples inp b t).drop (edges (strobe q inp) t)) ∧
      (∀ b, edges (strobe q inp) t ≤ writeCount inp b t) ∧
      ReadTogether (visCount q inp) (strobe q inp) t := by
  induction t with
  | zero => exact ⟨fun b c => rfl, fun b => Nat.zero_le _, fun x hx => absurd hx (by omega)⟩
  | succ t ih =>
    obtain ⟨hal, hle, hread⟩ := ih
    have hrd := strobe_iff hal
    have hstep := (hal.cycle (h.room_of hread hle) (h.filled t)).1
    refine ⟨?_, ?_, ?_⟩
    · intro b c
      rw [cdcRun_succ, hstep b c]
      beta_reduce
      rw [samples, edges_succ, ← List.drop_append_of_le_length (hle b), List.drop_drop]
      rfl
    · intro b
      rw [edges_succ, writeCount_succ]
      by_cases hs : strobe q inp t = true
      · have := h.shown.complete (hrd.mp hs) b
        rw [if_pos hs]
        omega
      · have := hle b
        rw [if_neg hs]
        omega
    · intro x hx
      rcases Nat.eq_or_lt_of_le (Nat.lt_succ_iff.mp hx) with rfl | hlt
      · exact hrd
      · exact hread x hlt

/-- The strobe takes the sample of its own number from either monitor. -/
theorem delivered (h : Timely q inp lat) {t : ℕ} (hs : strobe q inp t = true) (b : Bpm) :
    (samples inp b (t + 1))[edges (strobe q inp) t]? = some ((cdcRun q inp (t + 1)).sample b) := by
  obtain ⟨hal, hle, hread⟩ := h.aligned t
  rw [cdcRun_succ, ← (hal.cycle (h.room_of hread hle) (h.filled t)).2 hs b, samples,
    ← List.drop_append_of_le_length (hle b), List.head?_drop]

/-- A pair that becomes complete in cycle `t` is read within the latency. -/
theorem exists_strobe (h : Timely q inp lat) {k t : ℕ} (hnew : ¬ Complete (writeCount inp) k t)
    (hk : Complete (writeCount inp) k (t + 1)) :
    ∃ x, t < x ∧ x ≤ t + lat + 1 ∧ strobe q inp x = true ∧ edges (strobe q inp) x = k := by
  have hread := fun x => (h.aligned x).2.2
  have hlt := h.paced.read_within (by omega) h.shown (hread (t + lat + 2)) hk (by omega)
  obtain ⟨x, hx, hs, hedges⟩ := exists_rd_of_lt hlt
  refine ⟨x, ?_, by omega, hs, hedges⟩
  by_contra hxt
  have hvis := h.shown.complete ((hread (x + 1) x (by omega)).mp hs)
  rw [hedges] at hvis
  exact hnew fun b => (hvis b).trans_le (writeCount_mono inp b (by omega))

end Timely

/-! ## FIFOs that are alike

Synchronisers that all take the same number of cycles keep to the conditions on the FIFOs. -/

/-- The FIFOs of a monitor are in step: they hold and show equally many words. -/
def InStep (s : Cdc w) : Prop := ∀ b c, (s b c).fifo.ready.length = (s b .x).fifo.ready.length ∧
  (s b c).fifo.pending.length = (s b .x).fifo.pending.length

theorem InStep.write {s : Cdc w} (h : InStep s) (b : Bpm) (p : Sample w) :
    InStep (cdcStep s (.write b p)) := by
  intro b' c
  obtain ⟨hr, hp⟩ := h b' c
  by_cases hb : b' = b
  · subst hb
    simp only [cdcStep, if_pos, AsyncFifo.push, AsyncFifo.Full, AsyncFifo.contents,
      List.length_append, hr, hp]
    split_ifs
    · exact ⟨hr, hp⟩
    · exact ⟨hr, by simp [hp]⟩
  · simpa [cdcStep, hb] using h b' c

theorem InStep.writes {s : Cdc w} (h : InStep s) (b : Bpm) (l : List (Sample w)) :
    InStep (s.writes b l) := by
  unfold Cdc.writes
  induction l generalizing s with
  | nil => exact h
  | cons p l ih => exact ih (h.write b p)

theorem InStep.cycle {s : Cdc w} (h : InStep s) {i : CycleIn w}
    (hi : ∀ b c, i.shown b c = i.shown b .x) : InStep (s.cycle i) := by
  intro b c
  obtain ⟨hr, hp⟩ := ((h.writes .ds (i.writes .ds)).writes .us (i.writes .us)) b c
  simp only [Cdc.cycle, cdcStep, CdcFifo.edge, AsyncFifo.sync, AsyncFifo.pop, hi b c]
  split_ifs
  · simp [hr, hp]
  · simp [hr, hp]

theorem Cdc.pending_writes_le (s : Cdc w) (b : Bpm) (l : List (Sample w)) (b' : Bpm) (c : Chan) :
    (s.writes b l b' c).fifo.pending.length ≤
      (s b' c).fifo.pending.length + if b' = b then l.length else 0 := by
  unfold Cdc.writes
  induction l generalizing s with
  | nil => exact Nat.le_add_right _ _
  | cons p l ih =>
    refine (ih _).trans ?_
    simp only [cdcStep, AsyncFifo.push]
    split_ifs with hb hfull
    · subst hb
      simp
    · subst hb
      simp
      omega
    · simp

/-- A cycle takes off what becomes visible. -/
theorem Cdc.pending_cycle_le (s : Cdc w) (i : CycleIn w) (b : Bpm) (c : Chan) :
    (s.cycle i b c).fifo.pending.length ≤
      (s b c).fifo.pending.length + (i.writes b).length - i.shown b c := by
  have hds := s.pending_writes_le .ds (i.writes .ds) b c
  have hus := (s.writes .ds (i.writes .ds)).pending_writes_le .us (i.writes .us) b c
  have hpop : (s.cycle i b c).fifo.pending = ((s.writes .ds (i.writes .ds)).writes .us
      (i.writes .us) b c).fifo.pending.drop (i.shown b c) := by
    simp only [Cdc.cycle, cdcStep, CdcFifo.edge, AsyncFifo.sync, AsyncFifo.pop]
    split_ifs
    · rfl
    · rfl
  rw [hpop, List.length_drop]
  cases b
  · simp at hds hus
    omega
  · simp at hds hus
    omega

/-- **Synchronisers that are alike keep to the conditions on the FIFOs**: it is enough that every
word becomes visible `m` cycles after its write. -/
theorem Timely.of_alike {m : ℕ} (hp : Paced (8 + m) (writeCount inp))
    (hskew : ∀ b b' t, writeCount inp b t < writeCount inp b' t + cdcRefSize)
    (hsync : ∀ t b c, (inp t).shown b c = if m ≤ t then ((inp (t - m)).writes b).length else 0) :
    Timely q inp m where
  paced := hp
  skew := hskew
  within b t := by
    have hpending : ∀ t, (cdcRun q inp t b .x).fifo.pending.length + writeCount inp b (t - m) ≤
        writeCount inp b t := by
      intro t
      induction t with
      | zero => rw [Nat.zero_sub]; exact le_rfl
      | succ t ih =>
        have hstep := (cdcRun q inp t).pending_cycle_le (inp t) b .x
        have hmono := writeCount_mono inp b (show t + 1 - m ≤ t + 1 by omega)
        rw [← cdcRun_succ, hsync] at hstep
        rw [writeCount_succ] at hmono ⊢
        split_ifs at hstep with hm
        · rw [show t + 1 - m = t - m + 1 by omega, writeCount_succ] at hmono ⊢
          omega
        · rw [show t + 1 - m = 0 by omega]
          rw [show t - m = 0 by omega] at ih
          omega
    have := hpending (t + m)
    rw [Nat.add_sub_cancel] at this
    rw [visCount]
    omega
  filled t hs b c := by
    have hin : ∀ t, InStep (cdcRun q inp t) := by
      intro t
      induction t with
      | zero => exact fun b c => ⟨rfl, rfl⟩
      | succ t ih => exact ih.cycle fun b c => by rw [hsync, hsync]
    have hx := Cdc.rd_eq_true.mp hs b
    rw [AsyncFifo.isEmpty, List.isEmpty_eq_false_iff, ← List.length_pos_iff] at hx ⊢
    rwa [(hin t b c).1]

/-! ## The detectors behind the crossing -/

/-- The inputs of the detectors and the latch in a run of the whole. -/
def coreInputs (q : Bpm → Chan → BitVec w) (inp : ℕ → CycleIn w) (t : ℕ) : Input w :=
  coreIn (cdcRun q inp t) (inp t)

/-- `orbit_intlk` from power-up of the crossing on, its other registers in `s`. -/
def intlkRun (q : Bpm → Chan → BitVec w) (s : State A) (inp : ℕ → CycleIn w) (t : ℕ) : Intlk A :=
  run Intlk.step ⟨Cdc.powerUp q, s⟩ inp t

theorem intlkRun_cdc (s : State A) (t : ℕ) : (intlkRun q s inp t).cdc = cdcRun q inp t :=
  run_proj Intlk.cdc (fun _ i => i) (fun _ _ => rfl) _ inp t

theorem intlkRun_core (s : State A) (t : ℕ) :
    (intlkRun q s inp t).core = run step s (coreInputs q inp) t := by
  induction t with
  | zero => rfl
  | succ t ih =>
    rw [run_succ, ← ih, coreInputs, ← intlkRun_cdc s]
    rfl

theorem valid_succ (q : Bpm → Chan → BitVec w) (inp : ℕ → CycleIn w) (t : ℕ) :
    (coreInputs q inp (t + 1)).dsValid = strobe q inp t ∧
    (coreInputs q inp (t + 1)).usValid = strobe q inp t := by
  have h := Cdc.out_paired (((cdcRun q inp t).writes .ds ((inp t).writes .ds)).writes .us
    ((inp t).writes .us)) (inp t).shown
  rwa [Cdc.rd_writes, Cdc.rd_writes] at h

theorem posValid_succ (t : ℕ) : (coreInputs q inp (t + 1)).posValid = strobe q inp t := by
  obtain ⟨hd, hu⟩ := valid_succ q inp t
  rw [Input.posValid, hd, hu, Bool.and_self]

/-- Pair number `k` of the samples written before cycle `t`. -/
def pairNo (inp : ℕ → CycleIn w) (t k : ℕ) : Option (Sample w × Sample w) :=
  ((samples inp .ds t).zip (samples inp .us t))[k]?

theorem pairNo_eq_some {t k : ℕ} {p : Sample w × Sample w} : pairNo inp t k = some p ↔
    (samples inp .ds t)[k]? = some p.1 ∧ (samples inp .us t)[k]? = some p.2 :=
  List.getElem?_zip_eq_some

theorem pairNo_of_le {t t' k : ℕ} {p : Sample w × Sample w} (h : pairNo inp t k = some p)
    (htt : t ≤ t') : pairNo inp t' k = some p := by
  obtain ⟨r, hr⟩ := zip_prefix_zip (samples_mono inp .ds htt) (samples_mono inp .us htt)
  rw [pairNo] at h ⊢
  rw [← hr, List.getElem?_append_left (List.getElem?_eq_some_iff.mp h).1, h]

theorem complete_iff {t k : ℕ} : Complete (writeCount inp) k t ↔ pairNo inp t k ≠ none := by
  rw [pairNo, ne_eq, List.getElem?_eq_none_iff, not_le, List.length_zip, lt_min_iff]
  constructor
  · exact fun h => ⟨h .ds, h .us⟩
  · rintro ⟨hd, hu⟩ (_ | _)
    · exact hd
    · exact hu

/-- A pair by itself, under the settings `cfg`. -/
def Config.pair (cfg : Config w) (p : Sample w × Sample w) : Input w where
  rstN := true
  cfg := cfg
  clr := false
  transClr := false
  angClr := false
  ds := p.1
  us := p.2
  dsValid := true
  usValid := true

namespace Timely

variable {lat n : ℕ} {cfg : Config w}

/-- The detectors get the pairs one by one, each under its own number. -/
theorem coreInputs_eq (h : Timely q inp lat) {t : ℕ} (hs : strobe q inp t = true) :
    pairNo inp (t + 1) (edges (strobe q inp) t) =
      some ((coreInputs q inp (t + 1)).ds, (coreInputs q inp (t + 1)).us) :=
  pairNo_eq_some.mpr ⟨h.delivered hs .ds, h.delivered hs .us⟩

/-- **Behind the crossing the detectors are in operation**. -/
theorem operation (h : Timely q inp lat) (hrst : ResetThen (fun t => (inp t).rstN) n)
    (hcfg : ∀ t, (inp t).cfg = cfg) : Operation (coreInputs q inp) n cfg where
  reset := hrst
  cfg_eq := hcfg
  paired t := by
    cases t with
    | zero => rfl
    | succ t => rw [(valid_succ q inp t).1, (valid_succ q inp t).2]
  spaced u x hu hx hx' := by
    have hspaced : Spaced 8 (strobe q inp) :=
      h.paced.spaced h.shown fun t => (h.aligned t).2.2
    obtain ⟨x, rfl⟩ := Nat.exists_eq_add_of_le' (show 1 ≤ x by omega)
    cases u with
    | zero => exact absurd hu Bool.false_ne_true
    | succ u =>
      beta_reduce at hu ⊢
      rw [posValid_succ] at hu ⊢
      exact hspaced u x hu (by omega) (by omega)

end Timely

/-- A pair that trips raises the latch two cycles after any of the cycles, from the seventh to the
twelfth, without a clear. -/
theorem Operation.intlkLtc_of_free {inp : ℕ → Input w} {n : ℕ} {cfg : Config w} (s : State A)
    (h : Operation inp n cfg) (hen : cfg.intlkEn = true) {u c : ℕ} (htrip : TripsAt inp u)
    (hc : u + 7 ≤ c) (hc' : c ≤ u + 12) (hd : ∀ d, (inp c).clrOf d = false)
    (hclr : (inp (c + 1)).clr = false) : (run OrbitIntlk.step s inp (c + 2)).intlkLtc = true := by
  obtain ⟨hu, hp, ho⟩ := htrip
  obtain ⟨d, hden, hout⟩ := Input.outOfLimits_iff.mp ho
  have hn := h.le_of_pairAt hu
  have hlast : ∀ k, 4 ≤ k → k ≤ 6 → latest (pairAt inp) (c - k) = some u := fun k hk hk' =>
    h.pairAt_spaced.latest_eq hu (by omega) (by omega)
  have hgate : GateOpen inp cfg (c - 4) :=
    hp.imp (fun hoff => by rwa [h.cfg_eq] at hoff) fun hs => ⟨u, hlast 4 le_rfl (by omega), hs⟩
  have hage := hlast d.latency (by have := d.five_le_latency; omega) d.latency_le_six
  have hal := (h.alarm_iff s d (show n < c by omega)).mpr
    ⟨by rwa [h.cfg_eq] at hden, hgate, u, hage, hout⟩
  exact h.intlkLtc_of_alarm s hen (by omega) hal (hd d) hclr

/-- **A pair out of limits trips in time**: with the interlock enabled and constant settings, the
latch is up in one of the cycles from the eleventh to number `lat + 16` after the one in which the
later of its two samples is written, if any six cycles have one without a clear of the detectors
that is followed by one without the general clear. -/
theorem trip_in_time (s : State A) {lat n : ℕ} {cfg : Config w} (h : Timely q inp lat)
    (hrst : ResetThen (fun t => (inp t).rstN) n) (hcfg : ∀ t, (inp t).cfg = cfg)
    (hen : cfg.intlkEn = true)
    (hclr : ∀ t, ∃ c, t ≤ c ∧ c < t + 6 ∧ (inp c).transClr = false ∧ (inp c).angClr = false ∧
      (inp (c + 1)).clr = false)
    {k t : ℕ} {p : Sample w × Sample w} (ht : n ≤ t) (hnew : pairNo inp t k = none)
    (hk : pairNo inp (t + 1) k = some p) (hgate : (cfg.pair p).PassesGate)
    (hout : (cfg.pair p).OutOfLimits) :
    ∃ y, t + 11 ≤ y ∧ y ≤ t + lat + 16 ∧ (intlkRun q s inp y).core.intlkLtc = true := by
  have hop := h.operation hrst hcfg
  obtain ⟨x, htx, hxt, hs, hx⟩ := h.exists_strobe (k := k) (t := t)
    (fun hc => complete_iff.mp hc hnew) (complete_iff.mpr (by simp [hk]))
  have hpair : p = ((coreInputs q inp (x + 1)).ds, (coreInputs q inp (x + 1)).us) := by
    have hsame := pairNo_of_le hk (show t + 1 ≤ x + 1 by omega)
    rw [← hx, h.coreInputs_eq hs] at hsame
    exact (Option.some.inj hsame).symm
  have hcfg' : (coreInputs q inp (x + 1)).cfg = cfg := hcfg (x + 1)
  have htrip : TripsAt (coreInputs q inp) (x + 1) := by
    subst hpair hcfg'
    refine ⟨?_, hgate, hout⟩
    rw [hop.pairAt_eq (by omega), posValid_succ, hs]
  obtain ⟨c, hc, hc', htc, hac, hg⟩ := hclr (x + 8)
  refine ⟨c + 2, by omega, by omega, ?_⟩
  rw [intlkRun_core]
  exact hop.intlkLtc_of_free s hen htrip (by omega) (by omega)
    (fun d => by cases d <;> assumption) hg

/-- The samples of the script: one of each monitor, the upstream one a cycle later. -/
def scriptWrites (t : ℕ) : Bpm → List (Sample 32)
  | .ds => if t = 10 then [⟨0x1000000, 0x1000000, 0, 0x10000⟩] else []
  | .us => if t = 11 then [⟨0x1000000, 0x1000000, 0, 0x10000⟩] else []

/-- The limits test of the testbench with the crossing: every FIFO shows its word two cycles
later. -/
def responseScript (t : ℕ) : CycleIn 32 where
  writes := scriptWrites t
  shown b _ := if 2 ≤ t then (scriptWrites (t - 2) b).length else 0
  rstN := decide (8 ≤ t)
  cfg := minSumConfig
  clr := false
  transClr := false
  angClr := false

theorem responseScript_reset : ResetThen (fun t => (responseScript t).rstN) 8 where
  low t ht := by simp [responseScript]; omega
  high t ht := by simp [responseScript, ht]
  three_le := by omega

theorem responseScript_writeCount (b : Bpm) (t : ℕ) : writeCount responseScript b t ≤ 1 := by
  have hfirst : ∀ t ≤ 11, writeCount responseScript b t ≤ 1 := by
    cases b <;> decide
  rcases Nat.lt_or_ge t 12 with hlt | hge
  · exact hfirst t (by omega)
  · have hlast : writeCount responseScript b 12 ≤ 1 := by cases b <;> decide
    rwa [hold_between (g := writeCount responseScript b) hge]
    intro x hx hx'
    rw [writeCount_succ]
    cases b
    · simp [responseScript, scriptWrites, show x ≠ 10 by omega]
    · simp [responseScript, scriptWrites, show x ≠ 11 by omega]

theorem responseScript_timely (q : Bpm → Chan → BitVec 32) : Timely q responseScript 2 := by
  apply Timely.of_alike
  · intro k t hk
    have := responseScript_writeCount .ds t
    have := hk .ds
    omega
  · intro b b' t
    have := responseScript_writeCount b t
    simp only [cdcRefSize]
    omega
  · intro t b c
    rfl

/-- The pair of the script is complete in cycle 11 and raises the latch within 18 cycles. -/
theorem responseScript_trips : ∃ y, 11 + 11 ≤ y ∧ y ≤ 11 + 2 + 16 ∧
    (intlkRun (fun _ _ => 0) (State.powerUp (A := Adder.twoStage 32) idleAdder) responseScript
      y).core.intlkLtc = true :=
  trip_in_time (State.powerUp (A := Adder.twoStage 32) idleAdder) (responseScript_timely _)
    responseScript_reset (fun _ => rfl) rfl
    (fun t => ⟨t, le_rfl, by omega, rfl, rfl, rfl⟩) (k := 0) (by omega) (by decide)
    (p := (⟨0x1000000, 0x1000000, 0, 0x10000⟩, ⟨0x1000000, 0x1000000, 0, 0x10000⟩)) (by decide)
    (by decide) (by decide)

/-! ## No trip without a pair out of limits -/

/-- An alarm is the verdict on one pair and the gate of the same pair or of the next one. -/
theorem Operation.exists_pairs_of_alarm {inp : ℕ → Input w} {n : ℕ} {cfg : Config w} (s : State A)
    (h : Operation inp n cfg) {c : ℕ} (hc : n ≤ c) {d : Detector}
    (hal : (run OrbitIntlk.step s inp c).alarm d = true) :
    ∃ u v, u ≤ v ∧ v < c ∧ pairAt inp u = true ∧ pairAt inp v = true ∧
      (∀ y, u < y → y < v → pairAt inp y = false) ∧ (inp u).OutOfLimits ∧ (inp v).PassesGate := by
  rcases Nat.eq_or_lt_of_le hc with rfl | hlt
  · simp [h.alarm_release s] at hal
  obtain ⟨hen, hgate, u, hu, ho⟩ := (h.alarm_iff s d hlt).mp hal
  have hout : (inp u).OutOfLimits := Input.outOfLimits_iff.mpr ⟨d, by rwa [h.cfg_eq], ho⟩
  obtain ⟨huc, hpu, hno⟩ := latest_eq_some_iff.mp hu
  have hfive := d.five_le_latency
  have hsix := d.latency_le_six
  rcases hgate with hoff | ⟨v, hv, hsum⟩
  · exact ⟨u, u, le_rfl, by omega, hpu, hpu, fun y hy hy' => absurd hy (by omega), hout,
      Or.inl (by rwa [h.cfg_eq])⟩
  · obtain ⟨hvc, hpv, hno'⟩ := latest_eq_some_iff.mp hv
    refine ⟨u, v, ?_, by omega, hpu, hpv, ?_, hout, Or.inr hsum⟩
    · by_contra hlt'
      simp [hno' u (by omega) (by omega)] at hpu
    · -- a pair between the two would be older than the verdict, or too near to the second
      intro y hy hy'
      by_contra hpy
      have hpy' : pairAt inp y = true := by simpa using hpy
      rcases Nat.lt_or_ge y (c - d.latency) with hyc | hyc
      · exact hpy (hno y hy hyc)
      · simp [h.pairAt_spaced y v hpy' hy' (by omega)] at hpv

/-- Where no level survived the reset, the latch comes from an alarm. -/
theorem Operation.exists_alarm_of_intlkLtc {inp : ℕ → Input w} {n : ℕ} {cfg : Config w}
    (s : State A) (h : Operation inp n cfg) (hlev : s.LevelsDown) {t : ℕ} (ht : n ≤ t)
    (hltc : (run OrbitIntlk.step s inp t).intlkLtc = true) :
    ∃ c d, n ≤ c ∧ c < t ∧ (run OrbitIntlk.step s inp c).alarm d = true := by
  obtain ⟨e, hne, het, hset, -⟩ := (h.intlkLtc_iff s ht).mp hltc
  simp only [State.intlkAll, Bool.and_eq_true] at hset
  rcases Nat.eq_or_lt_of_le hne with rfl | hlt
  · have hdown : (run OrbitIntlk.step s inp n).LevelsDown := by
      rw [State.LevelsDown, level_run_reset s h.reset.low le_rfl]
      exact hlev
    simp [levelsDown_iff.mp hdown] at hset
  · obtain ⟨c, rfl⟩ := Nat.exists_eq_add_of_le' (show 1 ≤ e by omega)
    obtain ⟨d, hd⟩ := exists_intlkOf.mp hset.1
    rw [run_succ, intlkOf_step _ (h.reset.high c (by omega)), Bool.and_eq_true] at hd
    exact ⟨c, d, by omega, by omega, hd.2⟩

/-- A pair of the detectors comes from a strobe. -/
theorem exists_strobe_of_pairAt {u : ℕ} (hu : pairAt (coreInputs q inp) u = true) :
    ∃ x, u = x + 1 ∧ strobe q inp x = true := by
  have hvalid : (coreInputs q inp u).posValid = true := (Bool.and_eq_true_iff.mp hu).2
  cases u with
  | zero => exact absurd hvalid Bool.false_ne_true
  | succ x => exact ⟨x, rfl, by rwa [← posValid_succ]⟩

/-- **No trip without a pair out of limits**: when the latch is up, two samples of the same number
were out of the limits of an enabled detector, and they or the two next ones pass the sum gate. -/
theorem trip_of_pair (s : State A) {lat n : ℕ} {cfg : Config w} (h : Timely q inp lat)
    (hrst : ResetThen (fun t => (inp t).rstN) n) (hcfg : ∀ t, (inp t).cfg = cfg)
    (hlev : s.LevelsDown) {t : ℕ} (ht : n ≤ t)
    (hltc : (intlkRun q s inp t).core.intlkLtc = true) :
    ∃ k k' p p', pairNo inp t k = some p ∧ (cfg.pair p).OutOfLimits ∧
      pairNo inp t k' = some p' ∧ (cfg.pair p').PassesGate ∧ (k' = k ∨ k' = k + 1) := by
  have hop := h.operation hrst hcfg
  rw [intlkRun_core] at hltc
  obtain ⟨c, d, hc, hct, hal⟩ := hop.exists_alarm_of_intlkLtc s hlev ht hltc
  obtain ⟨u, v, huv, hvc, hu, hv, hno, hout, hgate⟩ := hop.exists_pairs_of_alarm s hc hal
  have hn := hop.le_of_pairAt hu
  obtain ⟨x, rfl, hx⟩ := exists_strobe_of_pairAt hu
  obtain ⟨z, rfl, hz⟩ := exists_strobe_of_pairAt hv
  have hcfg' : ∀ t, (coreInputs q inp t).cfg = cfg := hcfg
  refine ⟨_, _, _, _, pairNo_of_le (h.coreInputs_eq hx) (by omega), ?_,
    pairNo_of_le (h.coreInputs_eq hz) (by omega), ?_, ?_⟩
  · rw [← hcfg' (x + 1)]
    exact hout
  · rw [← hcfg' (z + 1)]
    exact hgate
  · rcases Nat.eq_or_lt_of_le huv with heq | hlt
    · left
      rw [Nat.succ_injective heq]
    · right
      rw [← edges_of_rd hx]
      apply hold_between (g := edges (strobe q inp)) (by omega)
      intro y hy hy'
      have hquiet := hno (y + 1) (by omega) (by omega)
      rw [hop.pairAt_eq (by omega), posValid_succ] at hquiet
      rw [edges_succ, hquiet, if_neg Bool.false_ne_true, Nat.add_zero]

/-- The trip of the script is that of a pair out of limits. -/
theorem responseScript_cause : ∃ k p, pairNo responseScript 25 k = some p ∧
    (minSumConfig.pair p).OutOfLimits := by
  obtain ⟨k, -, p, -, hk, hout, -⟩ := trip_of_pair
    (State.powerUp (A := Adder.twoStage 32) idleAdder) (responseScript_timely fun _ _ => 0)
    responseScript_reset (fun _ => rfl) (powerUp_levelsDown _) (t := 25) (by omega)
    (by decide +kernel)
  exact ⟨k, p, hk, hout⟩

end Runs

end OrbitIntlk
