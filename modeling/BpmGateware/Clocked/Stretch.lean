import BpmGateware.Clocked.Hold
import BpmGateware.Clocked.Run

/-!
# Clock enables

A machine with a clock enable keeps its registers at the edges at which it is not enabled. Its runs
can be slowed down: between any two cycles any number of disabled cycles may be inserted, and at the
enabled edges the machine goes through the same states. In a design, this holds of each component
that takes the enable and whose inputs at the enabled edges are unchanged.

## Main definitions

* `edges v t`: the enabled edges before cycle `t`
* `Stretch on inp inp' e`: `inp'` is `inp` with disabled cycles inserted; input `n` is at edge `e n`

## Main results

* `card_strobes_edges`: counting what happens at enabled edges by their numbers
* `hold_between`: a register that no edge changes
* `Stretch.proj_run`: a component that holds while it is disabled does not see the inserted cycles
-/

namespace Clocked

variable {α σ τ ι κ : Type} {step : σ → ι → σ} {s : σ} {inp inp' : ℕ → ι} {e : ℕ → ℕ}

/-! ## Counting enabled edges -/

section Edges

variable {v : ℕ → Bool}

/-- The enabled edges before cycle `t`; so this is also the number of edge `t`, if it is enabled. -/
def edges (v : ℕ → Bool) (t : ℕ) : ℕ := (strobes v 0 t).card

@[simp] theorem edges_zero : edges v 0 = 0 := card_strobes_self

theorem edges_succ (t : ℕ) : edges v (t + 1) = edges v t + if v t then 1 else 0 :=
  card_strobes_succ (Nat.zero_le t)

theorem edges_mono : Monotone (edges v) := by
  apply monotone_nat_of_le_succ
  intro t
  rw [edges_succ]
  exact Nat.le_add_right _ _

/-- Edges are numbered without gaps. -/
theorem exists_edges_eq {n t : ℕ} (h : n ≤ edges v t) : ∃ x, edges v x = n := by
  induction t with
  | zero => exact ⟨0, by rw [edges_zero] at h ⊢; omega⟩
  | succ t ih =>
    rcases Nat.lt_or_ge (edges v t) n with hlt | hge
    · refine ⟨t + 1, ?_⟩
      rw [edges_succ] at h ⊢
      split_ifs at h ⊢ <;> omega
    · exact ih hge

/-- **What happens at enabled edges is counted by their numbers**. -/
theorem card_strobes_edges (p : ℕ → Bool) {a z : ℕ} (haz : a ≤ z) :
    (strobes (fun t => v t && p (edges v t)) a z).card =
      (strobes p (edges v a) (edges v z)).card := by
  induction z, haz using Nat.le_induction with
  | base => rw [card_strobes_self, card_strobes_self]
  | succ z haz ih =>
    rw [card_strobes_succ haz, ih, edges_succ]
    by_cases hv : v z = true
    · rw [if_pos hv, card_strobes_succ (edges_mono haz), hv, Bool.true_and]
    · simp [hv]

end Edges

/-! ## Slowed runs -/

/-- What no edge from `a` up to `b` changes. -/
theorem hold_between {g : ℕ → α} {a b : ℕ} (hab : a ≤ b)
    (h : ∀ x, a ≤ x → x < b → g (x + 1) = g x) : g b = g a := by
  induction b, hab using Nat.le_induction with
  | base => rfl
  | succ b hab ih =>
    rw [h b hab (by omega)]
    exact ih fun x hx hx' => h x hx (by omega)

/-- **A slowed input stream**: the inputs of `inp` in their order, the first one at once, with
disabled ones between them. -/
structure Stretch (on : ι → Bool) (inp inp' : ℕ → ι) (e : ℕ → ℕ) : Prop where
  start : e 0 = 0
  lt_succ : ∀ n, e n < e (n + 1)
  same : ∀ n, inp' (e n) = inp n
  off : ∀ n x, e n < x → x < e (n + 1) → on (inp' x) = false

/-- **A component that holds while it is disabled does not see the inserted cycles**: given the same
inputs at the edges of the original ones, it is there in the states of the original run. -/
theorem Stretch.proj_run {on : ι → Bool} (h : Stretch on inp inp' e) {cstep : τ → κ → τ}
    (p : σ → τ) (f : σ → ι → κ) (hp : ∀ s i, p (step s i) = cstep (p s) (f s i))
    (hhold : ∀ c s i, on i = false → cstep c (f s i) = c) {n : ℕ}
    (hsame : ∀ m < n, f (run step s inp' (e m)) (inp m) = f (run step s inp m) (inp m)) :
    p (run step s inp' (e n)) = p (run step s inp n) := by
  induction n with
  | zero => rw [h.start, run_zero, run_zero]
  | succ n ih =>
    -- between the two edges nothing moves, and at the first one both runs do the same
    have hgap : p (run step s inp' (e (n + 1))) = p (run step s inp' (e n + 1)) := by
      apply hold_between (g := fun x => p (run step s inp' x)) (h.lt_succ n)
      intro x hx hx'
      rw [run_succ, hp]
      exact hhold _ _ _ (h.off n x hx hx')
    rw [hgap, run_succ, run_succ, hp, hp, h.same, ih fun m hm => hsame m (by omega),
      hsame n (by omega)]

end Clocked
