import BpmGateware.Clocked.PulseSync
import Mathlib.Data.BitVec

/-!
# Bus slaves that acknowledge through a shift register

A slave of a pipelined bus that serves one request at a time. It takes a request up at the first
edge at which it is free, puts a one into a shift register at the place that the request needs, and
acknowledges when the one has arrived at bit `0`. The request is stalled up to the cycle of the
acknowledge, so the master still shows it there: a request is taken up once and accepted once, and
the requests that the slave takes up are those that the master sees accepted, in their order.

Time is a stream of ticks, of which `sys` marks the edges of the bus clock.

## Main definitions

* `AckGen`, `AckGen.next`: the acknowledge generator; `AckGen.idle`, `AckGen.due`: its two shapes
* `Slave`: a generator on its clock
* `started`, `accepted`: the requests taken up, and those accepted, by tick
* `Patient`: a master that keeps a request as long as it is stalled
* `history e t`: the events of `e` before tick `t`, in order

## Main results

* `Slave.busy`, `Slave.ack_iff`: the acknowledge comes exactly as many edges after the start as the
  request needs
* `Slave.invariant`: the invariant rule for what a slave drives
* `Slave.accepted_iff`: each request taken up is accepted once, and no other one
* `Slave.history_started`: what is taken up is what is accepted, and the one in progress
* `Slave.accepted_response`: a machine stepped by the requests taken up answers as if it were run on
  those accepted, one after the other
-/

namespace Clocked

variable {ρ μ : Type} {n : ℕ}

/-! ## The acknowledge generator -/

/-- What an edge of the bus clock finds the slave doing. -/
inductive Move (ρ : Type)
  | rest
  | start (r : ρ)
  | advance
  | finish
  deriving DecidableEq, Repr

/-- The acknowledge generator of a slave. -/
structure AckGen (n : ℕ) where
  sreg : BitVec n
  inProgress : Bool
  deriving DecidableEq, Repr

namespace AckGen

/-- The acknowledge is bit `0` of the shift register. -/
def ack (a : AckGen n) : Bool := a.sreg.getLsbD 0

def move (a : AckGen n) (req : Option ρ) : Move ρ :=
  if a.inProgress then if a.ack then .finish else .advance
  else match req with
    | none => .rest
    | some r => .start r

/-- One edge: the register shifts towards bit `0`, and a start sets the bit of its request. -/
def next (lat : ρ → ℕ) (a : AckGen n) (req : Option ρ) : AckGen n :=
  match a.move req with
  | .rest => ⟨a.sreg >>> 1, a.inProgress⟩
  | .start r => ⟨a.sreg >>> 1 ||| BitVec.twoPow n (lat r), true⟩
  | .advance => ⟨a.sreg >>> 1, a.inProgress⟩
  | .finish => ⟨a.sreg >>> 1, false⟩

/-- The generator of a free slave. -/
def idle : AckGen n := ⟨0, false⟩

/-- The generator of a slave that acknowledges after `j` more edges. -/
def due (j : ℕ) : AckGen n := ⟨BitVec.twoPow n j, true⟩

variable {lat : ρ → ℕ} {req : Option ρ} {j : ℕ}

@[simp] theorem ack_idle : (idle : AckGen n).ack = false := by simp [ack, idle]

theorem ack_due (hj : j < n) : (due j : AckGen n).ack = decide (j = 0) := by
  rw [ack, due, BitVec.getLsbD_twoPow, decide_eq_true hj, Bool.true_and]

@[simp] theorem due_inProgress : (due j : AckGen n).inProgress = true := rfl

theorem due_ne_idle : (due j : AckGen n) ≠ idle := fun h => by cases congrArg inProgress h

theorem due_injective {i : ℕ} (hi : i < n) (hj : j < n) (h : (due i : AckGen n) = due j) :
    i = j := by
  have hb : (BitVec.twoPow n i).getLsbD i = (BitVec.twoPow n j).getLsbD i :=
    congrArg (fun a => a.sreg.getLsbD i) h
  simp only [BitVec.getLsbD_twoPow, decide_eq_true hi, decide_eq_true hj, Bool.true_and,
    decide_true] at hb
  exact (of_decide_eq_true hb.symm).symm

theorem twoPow_succ_ushiftRight (hj : j + 1 < n) :
    BitVec.twoPow n (j + 1) >>> 1 = BitVec.twoPow n j := by
  apply BitVec.eq_of_getLsbD_eq
  intro i hi
  rw [BitVec.getLsbD_ushiftRight, BitVec.getLsbD_twoPow, BitVec.getLsbD_twoPow,
    decide_eq_true hj, decide_eq_true (show j < n by omega), Bool.true_and, Bool.true_and,
    decide_eq_decide]
  omega

@[simp] theorem move_idle_none : (idle : AckGen n).move (none : Option ρ) = .rest := rfl

@[simp] theorem move_idle_some (r : ρ) : (idle : AckGen n).move (some r) = .start r := rfl

theorem move_due_zero (hn : 0 < n) : (due 0 : AckGen n).move req = .finish := by
  unfold move
  rw [ack_due hn]
  rfl

theorem move_due_succ (hj : j + 1 < n) : (due (j + 1) : AckGen n).move req = .advance := by
  unfold move
  rw [ack_due hj]
  rfl

theorem next_idle_none : (idle : AckGen n).next lat none = idle := by
  simp [next, idle, move]

theorem next_idle_some (r : ρ) : (idle : AckGen n).next lat (some r) = due (lat r) := by
  simp [next, idle, move, due]

theorem next_due_succ (hj : j + 1 < n) : (due (j + 1) : AckGen n).next lat req = due j := by
  rw [next, move_due_succ hj]
  simp [due, twoPow_succ_ushiftRight hj]

theorem next_due_zero (hn : 0 < n) : (due 0 : AckGen n).next lat req = idle := by
  rw [next, move_due_zero hn]
  simp only [due, idle, AckGen.mk.injEq, and_true]
  apply BitVec.eq_of_getLsbD_eq
  intro i hi
  rw [BitVec.getLsbD_ushiftRight, BitVec.getLsbD_twoPow, decide_eq_false (by omega : ¬0 = 1 + i)]
  simp

end AckGen

/-! ## The slave on its clock -/

/-- The requests taken up, by tick. -/
def started (sys : ℕ → Bool) (req : ℕ → Option ρ) (a : ℕ → AckGen n) (t : ℕ) : Option ρ :=
  if sys t && !(a t).inProgress then req t else none

/-- The requests accepted, by tick: shown at an edge with the acknowledge up. -/
def accepted (sys : ℕ → Bool) (req : ℕ → Option ρ) (a : ℕ → AckGen n) (t : ℕ) : Option ρ :=
  if sys t && (a t).ack then req t else none

/-- A master that keeps a request up to the edge at which it is not stalled. -/
def Patient (sys : ℕ → Bool) (req : ℕ → Option ρ) (a : ℕ → AckGen n) : Prop :=
  ∀ t r, req t = some r → sys t = false ∨ (a t).ack = false → req (t + 1) = some r

/-- A master whose requests end, and that keeps them up to then. -/
theorem patient_of_finite {sys : ℕ → Bool} {req : ℕ → Option ρ} {a : ℕ → AckGen n} {m : ℕ}
    (hm : ∀ t, m ≤ t → req t = none)
    (hk : ∀ t < m, req t ≠ none → sys t = false ∨ (a t).ack = false → req (t + 1) = req t) :
    Patient sys req a := by
  intro t r hr hor
  rcases Nat.lt_or_ge t m with hlt | hge
  · rw [hk t hlt (by simp [hr]) hor, hr]
  · rw [hm t hge] at hr
    cases hr

/-- **A slave with its acknowledge generator**: request `r` needs bit `lat r`. -/
structure Slave (lat : ρ → ℕ) (sys : ℕ → Bool) (req : ℕ → Option ρ) (a : ℕ → AckGen n) :
    Prop where
  zero : a 0 = .idle
  succ : ∀ t, a (t + 1) = if sys t then (a t).next lat (req t) else a t
  lat_lt : ∀ r, lat r < n

namespace Slave

variable {lat : ρ → ℕ} {sys : ℕ → Bool} {req : ℕ → Option ρ} {a : ℕ → AckGen n}
variable {r : ρ} {t u : ℕ}

/-- The generator is free, or holds a single one. -/
theorem idle_or_due (h : Slave lat sys req a) (t : ℕ) :
    a t = .idle ∨ ∃ j < n, a t = .due j := by
  induction t with
  | zero => exact .inl h.zero
  | succ t ih =>
    rw [h.succ]
    by_cases hs : sys t = true
    · rw [if_pos hs]
      rcases ih with hi | ⟨j, hj, hd⟩
      · rw [hi]
        cases req t with
        | none => exact .inl AckGen.next_idle_none
        | some r => exact .inr ⟨lat r, h.lat_lt r, AckGen.next_idle_some r⟩
      · rw [hd]
        cases j with
        | zero => exact .inl (AckGen.next_due_zero hj)
        | succ j => exact .inr ⟨j, by omega, AckGen.next_due_succ hj⟩
    · rw [if_neg hs]
      exact ih

theorem started_eq_some (h : Slave lat sys req a) :
    started sys req a t = some r ↔ sys t = true ∧ a t = .idle ∧ req t = some r := by
  unfold started
  rcases h.idle_or_due t with hi | ⟨j, -, hd⟩
  · by_cases hs : sys t = true <;> simp [hs, hi, AckGen.idle]
  · simp [hd, AckGen.due, AckGen.idle]

/-- **After a start the generator counts down**, one bit for each edge. -/
theorem busy (h : Slave lat sys req a) (hu : started sys req a u = some r) (hut : u < t)
    (hc : (strobes sys (u + 1) t).card ≤ lat r) :
    a t = .due (lat r - (strobes sys (u + 1) t).card) := by
  obtain ⟨hsu, hi, hr⟩ := h.started_eq_some.mp hu
  induction t, hut using Nat.le_induction with
  | base => rw [h.succ, if_pos hsu, hi, hr, AckGen.next_idle_some, card_strobes_self]; rfl
  | succ t hut ih =>
    rw [card_strobes_after hut] at hc ⊢
    rw [h.succ]
    by_cases hs : sys t = true
    · rw [if_pos hs] at hc ⊢
      rw [if_pos hs, ih (by omega)]
      have hlt := h.lat_lt r
      rw [show lat r - (strobes sys (u + 1) t).card =
        lat r - ((strobes sys (u + 1) t).card + 1) + 1 by omega]
      exact AckGen.next_due_succ (by omega)
    · rw [if_neg hs] at hc ⊢
      rw [if_neg hs, ih hc]
      rfl

/-- Nothing is taken up between a start and its acknowledge. -/
theorem started_eq_none (h : Slave lat sys req a) (hu : started sys req a u = some r) (hut : u < t)
    (hc : (strobes sys (u + 1) t).card ≤ lat r) : started sys req a t = none := by
  rw [started, h.busy hu hut hc]
  simp

/-- A generator that counts down was started. -/
theorem exists_started (h : Slave lat sys req a) {j : ℕ} (hj : j < n) (hd : a t = .due j) :
    ∃ u r, started sys req a u = some r ∧ u < t ∧ (strobes sys (u + 1) t).card + j = lat r := by
  induction t generalizing j with
  | zero => exact absurd (hd.symm.trans h.zero) AckGen.due_ne_idle
  | succ t ih =>
    rw [h.succ] at hd
    by_cases hs : sys t = true
    · rw [if_pos hs] at hd
      rcases h.idle_or_due t with hi | ⟨i, hin, hdi⟩
      · rw [hi] at hd
        cases hr : req t with
        | none => rw [hr, AckGen.next_idle_none] at hd; exact absurd hd.symm AckGen.due_ne_idle
        | some r =>
          rw [hr, AckGen.next_idle_some] at hd
          have hjr := AckGen.due_injective (h.lat_lt r) hj hd
          refine ⟨t, r, h.started_eq_some.mpr ⟨hs, hi, hr⟩, by omega, ?_⟩
          rw [card_strobes_self, hjr, Nat.zero_add]
      · rw [hdi] at hd
        cases i with
        | zero => rw [AckGen.next_due_zero hin] at hd; exact absurd hd.symm AckGen.due_ne_idle
        | succ i =>
          rw [AckGen.next_due_succ hin] at hd
          have hij := AckGen.due_injective (by omega) hj hd
          obtain ⟨u, r, hu, hut, hc⟩ := ih hin hdi
          refine ⟨u, r, hu, by omega, ?_⟩
          rw [card_strobes_after hut, if_pos hs]
          omega
    · rw [if_neg hs] at hd
      obtain ⟨u, r, hu, hut, hc⟩ := ih hj hd
      refine ⟨u, r, hu, by omega, ?_⟩
      rw [card_strobes_after hut, if_neg hs]
      exact hc

/-- **The invariant rule for slaves**: `I` holds while the slave is free, and `B r j` while it has
`j` edges to go with request `r`. Each kind of edge has its own premise. -/
theorem invariant (h : Slave lat sys req a) {σ : Type} {x : ℕ → σ} {I : σ → Prop}
    {B : ρ → ℕ → σ → Prop} (h₀ : I (x 0))
    (skip : ∀ t, sys t = false → (I (x t) → I (x (t + 1))) ∧ ∀ r j, B r j (x t) → B r j (x (t + 1)))
    (rest : ∀ t, sys t = true → (a t).move (req t) = .rest → I (x t) → I (x (t + 1)))
    (start : ∀ t r, sys t = true → (a t).move (req t) = .start r → I (x t) →
      B r (lat r) (x (t + 1)))
    (advance : ∀ t r j, sys t = true → j + 1 < n → a t = .due (j + 1) →
      (a t).move (req t) = .advance → B r (j + 1) (x t) → B r j (x (t + 1)))
    (finish : ∀ t r, sys t = true → (a t).move (req t) = .finish → B r 0 (x t) → I (x (t + 1)))
    (t : ℕ) :
    (a t = .idle → I (x t)) ∧ ∀ u r, started sys req a u = some r → u < t →
      (strobes sys (u + 1) t).card ≤ lat r →
        B r (lat r - (strobes sys (u + 1) t).card) (x t) := by
  induction t with
  | zero => exact ⟨fun _ => h₀, fun u r _ hu => absurd hu (Nat.not_lt_zero u)⟩
  | succ t ih =>
    obtain ⟨ihI, ihB⟩ := ih
    by_cases hs : sys t = true
    · constructor
      · intro hidle
        rw [h.succ, if_pos hs] at hidle
        rcases h.idle_or_due t with hi | ⟨j, hj, hd⟩
        · cases hr : req t with
          | none => exact rest t hs (by rw [hi, hr, AckGen.move_idle_none]) (ihI hi)
          | some r =>
            rw [hi, hr, AckGen.next_idle_some] at hidle
            exact absurd hidle AckGen.due_ne_idle
        · cases j with
          | zero =>
            obtain ⟨u, r, hu, hut, hc⟩ := h.exists_started hj hd
            have hB := ihB u r hu hut (by omega)
            rw [show lat r - (strobes sys (u + 1) t).card = 0 by omega] at hB
            exact finish t r hs (by rw [hd, AckGen.move_due_zero hj]) hB
          | succ j =>
            rw [hd, AckGen.next_due_succ hj] at hidle
            exact absurd hidle AckGen.due_ne_idle
      · intro u r hu hut hc
        rcases Nat.lt_succ_iff_lt_or_eq.mp hut with hlt | rfl
        · rw [card_strobes_after hlt, if_pos hs] at hc ⊢
          have hlt' := h.lat_lt r
          have hj : lat r - (strobes sys (u + 1) t).card =
              lat r - ((strobes sys (u + 1) t).card + 1) + 1 := by omega
          have hd := h.busy hu hlt (by omega)
          have hB := ihB u r hu hlt (by omega)
          rw [hj] at hd hB
          exact advance t r _ hs (by omega) hd (by rw [hd, AckGen.move_due_succ (by omega)]) hB
        · obtain ⟨-, hi, hr⟩ := h.started_eq_some.mp hu
          rw [card_strobes_self]
          exact start u r hs (by rw [hi, hr, AckGen.move_idle_some]) (ihI hi)
    · have hs' : sys t = false := by simpa using hs
      rw [h.succ, if_neg hs]
      refine ⟨fun hi => (skip t hs').1 (ihI hi), ?_⟩
      intro u r hu hut hc
      have hlt : u < t := by
        rcases Nat.lt_succ_iff_lt_or_eq.mp hut with hlt | rfl
        · exact hlt
        · exact absurd (h.started_eq_some.mp hu).1 hs
      rw [card_strobes_after hlt, if_neg hs, Nat.add_zero] at hc ⊢
      exact (skip t hs').2 r _ (ihB u r hu hlt hc)

/-- **The acknowledge comes exactly as many edges after the start as the request needs**. -/
theorem ack_iff (h : Slave lat sys req a) :
    (a t).ack = true ↔
      ∃ u r, started sys req a u = some r ∧ u < t ∧ (strobes sys (u + 1) t).card = lat r := by
  constructor
  · intro ht
    rcases h.idle_or_due t with hi | ⟨j, hj, hd⟩
    · simp [hi] at ht
    · rw [hd, AckGen.ack_due hj, decide_eq_true_iff] at ht
      exact h.exists_started (j := 0) (by omega) (by rw [hd, ht])
  · rintro ⟨u, r, hu, hut, hc⟩
    have hlt := h.lat_lt r
    rw [h.busy hu hut hc.le, hc, Nat.sub_self, AckGen.ack_due (by omega), decide_eq_true_iff]

/-! ## Requests taken up and requests accepted -/

/-- A patient master shows a request from its start up to the acknowledge. -/
theorem shown (h : Slave lat sys req a) (hp : Patient sys req a)
    (hu : started sys req a u = some r) (hut : u < t)
    (hc : (strobes sys (u + 1) t).card ≤ lat r) : req t = some r := by
  obtain ⟨-, hi, hr⟩ := h.started_eq_some.mp hu
  induction t, hut using Nat.le_induction with
  | base => exact hp u r hr (.inr (by rw [hi, AckGen.ack_idle]))
  | succ t hut ih =>
    rw [card_strobes_after hut] at hc
    apply hp t r (ih (by omega))
    by_cases hs : sys t = true
    · right
      rw [if_pos hs] at hc
      have hlt := h.lat_lt r
      rw [h.busy hu hut (by omega), AckGen.ack_due (by omega), decide_eq_false_iff_not]
      omega
    · left
      simpa using hs

/-- **Each request taken up is accepted once, and no other one**. -/
theorem accepted_iff (h : Slave lat sys req a) (hp : Patient sys req a) :
    accepted sys req a t = some r ↔ sys t = true ∧
      ∃ u, started sys req a u = some r ∧ u < t ∧ (strobes sys (u + 1) t).card = lat r := by
  unfold accepted
  constructor
  · intro ht
    obtain ⟨⟨hs, hack⟩, hr⟩ : (sys t = true ∧ (a t).ack = true) ∧ req t = some r := by
      simpa using ht
    obtain ⟨u, q, hu, hut, hc⟩ := h.ack_iff.mp hack
    have hq := h.shown hp hu hut hc.le
    rw [hr, Option.some.injEq] at hq
    exact ⟨hs, u, hq ▸ hu, hut, hq ▸ hc⟩
  · rintro ⟨hs, u, hu, hut, hc⟩
    rw [if_pos (by simp [hs, h.ack_iff.mpr ⟨u, r, hu, hut, hc⟩])]
    exact h.shown hp hu hut hc.le

/-- Nothing is accepted from a start up to its acknowledge. -/
theorem accepted_eq_none (h : Slave lat sys req a) (hu : started sys req a u = some r)
    (hut : u ≤ t) {x : ℕ} (hxt : t < x) (hc : (strobes sys (u + 1) x).card ≤ lat r) :
    accepted sys req a t = none := by
  unfold accepted
  by_cases hs : sys t = true
  · have hack : (a t).ack = false := by
      rcases Nat.lt_or_eq_of_le hut with hlt | heq
      · have hsplit := card_strobes_add (v := sys) (show u + 1 ≤ t from hlt) hxt.le
        have hpos := card_strobes_pos hs le_rfl hxt
        have hlt' := h.lat_lt r
        rw [h.busy hu hlt (by omega), AckGen.ack_due (by omega), decide_eq_false_iff_not]
        omega
      · rw [← heq, (h.started_eq_some.mp hu).2.1, AckGen.ack_idle]
    simp [hack]
  · simp [hs]

end Slave

/-! ## Histories -/

/-- The events before tick `t`, in order. -/
def history (e : ℕ → Option ρ) : ℕ → List ρ
  | 0 => []
  | t + 1 => history e t ++ (e t).toList

theorem history_succ (e : ℕ → Option ρ) (t : ℕ) :
    history e (t + 1) = history e t ++ (e t).toList := rfl

/-- A machine that is stepped by events is run on their history. -/
theorem eq_foldl_history {e : ℕ → Option ρ} {exec : μ → ρ → μ} {m : ℕ → μ}
    (hm : ∀ t, m (t + 1) = (e t).elim (m t) (exec (m t))) (t : ℕ) :
    m t = (history e t).foldl exec (m 0) := by
  induction t with
  | zero => rfl
  | succ t ih =>
    rw [hm, history_succ, List.foldl_append, ← ih]
    cases e t <;> rfl

namespace Slave

variable {lat : ρ → ℕ} {sys : ℕ → Bool} {req : ℕ → Option ρ} {a : ℕ → AckGen n}
variable {r : ρ} {t u : ℕ}

/-- **What is taken up is what is accepted, and the request in progress**. -/
theorem history_started (h : Slave lat sys req a) (hp : Patient sys req a) (t : ℕ) :
    history (started sys req a) t =
      history (accepted sys req a) t ++ if (a t).inProgress then (req t).toList else [] := by
  induction t with
  | zero => simp [history, h.zero, AckGen.idle]
  | succ t ih =>
    rw [history_succ, history_succ, ih, h.succ]
    unfold started accepted
    by_cases hs : sys t = true
    · rcases h.idle_or_due t with hi | ⟨j, hj, hd⟩
      · -- a free slave takes up what is shown, and the master keeps it
        cases hr : req t with
        | none =>
          rw [if_pos hs, hi, AckGen.next_idle_none]
          simp [AckGen.idle, AckGen.ack]
        | some r =>
          have hkeep := hp t r hr (.inr (by rw [hi, AckGen.ack_idle]))
          rw [if_pos hs, hi, AckGen.next_idle_some, hkeep, hs, AckGen.ack_idle]
          simp [AckGen.idle, AckGen.due]
      · obtain ⟨u, r, hu, hut, hc⟩ := h.exists_started hj hd
        have hr := h.shown hp hu hut (by omega)
        cases j with
        | zero =>
          rw [if_pos hs, hd, AckGen.next_due_zero hj, hs, hr, AckGen.ack_due hj]
          simp [AckGen.idle, AckGen.due]
        | succ j =>
          have hkeep := hp t r hr (.inr (by rw [hd, AckGen.ack_due hj]; rfl))
          rw [if_pos hs, hd, AckGen.next_due_succ hj, hs, hr, AckGen.ack_due hj, hkeep]
          simp [AckGen.due]
    · rw [if_neg hs]
      have hs' : sys t = false := by simpa using hs
      rcases h.idle_or_due t with hi | ⟨j, hj, hd⟩
      · simp [hs', hi, AckGen.idle]
      · obtain ⟨u, r, hu, hut, hc⟩ := h.exists_started hj hd
        have hr := h.shown hp hu hut (by omega)
        have hkeep := hp t r hr (.inl hs')
        simp [hs', hd, AckGen.due, hr, hkeep]

/-- Before a start, all that was taken up has been accepted; and so it is up to its acknowledge. -/
theorem history_accepted (h : Slave lat sys req a) (hp : Patient sys req a)
    (hu : started sys req a u = some r) (hut : u ≤ t)
    (hc : (strobes sys (u + 1) t).card ≤ lat r) :
    history (accepted sys req a) t = history (started sys req a) u := by
  rw [h.history_started hp u, (h.started_eq_some.mp hu).2.1]
  simp only [AckGen.idle, Bool.false_eq_true, if_false, List.append_nil]
  apply hold_between hut
  intro x hux hxt
  rw [history_succ, h.accepted_eq_none hu hux hxt hc, Option.toList_none, List.append_nil]

/-- With an acknowledge, everything that was taken up has been accepted. -/
theorem history_started_of_accepted (h : Slave lat sys req a) (hp : Patient sys req a)
    (ht : accepted sys req a t = some r) :
    history (started sys req a) t = history (accepted sys req a) (t + 1) := by
  obtain ⟨-, u, hu, hut, hc⟩ := (h.accepted_iff hp).mp ht
  rw [h.history_started hp, h.busy hu hut hc.le, history_succ, ht, h.shown hp hu hut hc.le]
  rfl

/-- With an acknowledge, every request taken up before has had its edges. -/
theorem lat_le_of_accepted (h : Slave lat sys req a) (hp : Patient sys req a)
    (ht : accepted sys req a t = some r) {x : ℕ} {q : ρ} (hx : started sys req a x = some q)
    (hxt : x < t) : lat q ≤ (strobes sys (x + 1) t).card := by
  obtain ⟨-, u, hu, hut, hc⟩ := (h.accepted_iff hp).mp ht
  rcases Nat.lt_trichotomy x u with hlt | rfl | hlt
  · by_contra hle
    have hmono := card_strobes_mono (v := sys) (c := x + 1) hut.le
    rw [h.started_eq_none hx hlt (by omega)] at hu
    cases hu
  · rw [hx, Option.some.injEq] at hu
    rw [hu, hc]
  · rw [h.started_eq_none hu hlt ((card_strobes_mono hxt.le).trans hc.le)] at hx
    cases hx

/-- **A machine stepped by the requests taken up answers as if run on those accepted**: when a
request is accepted, the state in which it was taken up is that of the accepted ones before it. -/
theorem accepted_response (h : Slave lat sys req a) (hp : Patient sys req a)
    {exec : μ → ρ → μ} {m : ℕ → μ}
    (hm : ∀ t, m (t + 1) = (started sys req a t).elim (m t) (exec (m t)))
    (ht : accepted sys req a t = some r) :
    ∃ u, started sys req a u = some r ∧ u < t ∧ (strobes sys (u + 1) t).card = lat r ∧
      m u = (history (accepted sys req a) t).foldl exec (m 0) := by
  obtain ⟨-, u, hu, hut, hc⟩ := (h.accepted_iff hp).mp ht
  refine ⟨u, hu, hut, hc, ?_⟩
  rw [h.history_accepted hp hu hut.le hc.le]
  exact eq_foldl_history hm u

end Slave

end Clocked
