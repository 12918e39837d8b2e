import Mathlib.Data.Set.Basic

/-!
# Runs of clocked machines

A clocked machine is a step function `step : σ → ι → σ`: at each clock edge the registers move
from the state before the edge to the state after it, as a function of that state and of the
inputs sampled at the edge. Its run from `s` on the input stream `inp` is the stream of its
states; cycle `t` of a run is the time between edge `t - 1` and edge `t`.

## Main definitions

* `run step s inp`: the states of the machine started in `s`, cycle by cycle
* `Reachable step init`: the states met by some run from `init`
* `Along step P s es`: every event of a list meets the condition `P` when it happens

## Main results

* `run_invariant`: the invariant rule for runs
* `run_proj`: a component of a machine runs on the stream of inputs it is given there
* `Along.foldl_induction`: the invariant rule for lists of events
-/

namespace Clocked

variable {σ τ ι κ : Type}

/-- The states of the machine `step` started in `s`: cycle `0` is `s`, and edge `t` samples
`inp t`. -/
def run (step : σ → ι → σ) (s : σ) (inp : ℕ → ι) : ℕ → σ
  | 0 => s
  | t + 1 => step (run step s inp t) (inp t)

variable {step : σ → ι → σ} {s : σ} {inp : ℕ → ι}

@[simp] theorem run_zero : run step s inp 0 = s := rfl

theorem run_succ (t : ℕ) : run step s inp (t + 1) = step (run step s inp t) (inp t) := rfl

/-- **The invariant rule for runs**: what holds at the start and is kept by every edge. -/
theorem run_invariant {I : ℕ → σ → Prop} (h₀ : I 0 s)
    (hstep : ∀ t s, I t s → I (t + 1) (step s (inp t))) (t : ℕ) : I t (run step s inp t) := by
  induction t with
  | zero => exact h₀
  | succ t ih => exact hstep t _ ih

/-- **A component runs on the inputs it is given**: if `p` reads a component off the machine,
and each step of the machine steps that component on `f`, the component's states are its run on
the stream of those inputs. -/
theorem run_proj {cstep : τ → κ → τ} (p : σ → τ) (f : σ → ι → κ)
    (h : ∀ s i, p (step s i) = cstep (p s) (f s i)) (s : σ) (inp : ℕ → ι) (t : ℕ) :
    p (run step s inp t) = run cstep (p s) (fun t => f (run step s inp t) (inp t)) t := by
  induction t with
  | zero => rfl
  | succ t ih => rw [run_succ, run_succ, h, ih]

/-- The states met by some run from a state of `init`. -/
def Reachable (step : σ → ι → σ) (init : Set σ) : Set σ :=
  {s | ∃ s₀ ∈ init, ∃ inp t, s = run step s₀ inp t}

/-! ## Runs over a list of events

Where several clocks drive one design, a run is a list of events in the order in which they
happen, whatever that order is. -/

/-- Every event of the list finds a state that satisfies `P` for it. -/
def Along (step : σ → ι → σ) (P : σ → ι → Prop) (s : σ) : List ι → Prop
  | [] => True
  | e :: es => P s e ∧ Along step P (step s e) es

/-- **The invariant rule**: what every event keeps that meets its condition holds after the
list. -/
theorem Along.foldl_induction {P : σ → ι → Prop} {I : σ → Prop}
    (hstep : ∀ s e, I s → P s e → I (step s e)) {es : List ι} (h : Along step P s es)
    (hs : I s) : I (es.foldl step s) := by
  induction es generalizing s with
  | nil => exact hs
  | cons e es ih => exact ih h.2 (hstep s e hs h.1)

end Clocked
