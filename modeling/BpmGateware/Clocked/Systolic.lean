import Mathlib.Algebra.BigOperators.Group.Finset.Basic

/-!
# Systolic cascades

A stream as a pipeline sees it: what was presented a number of cycles ago, and nothing before the
start. In a systolic cascade each stage adds a term of its own to the sum of the stage before it.
The sums move one register per stage and the data two, so the terms that meet in the last sum
belong to consecutive samples.

A cascade started in an arbitrary state has to be flushed before its sums mean anything, one whose
registers start at zero does not. Both are covered: the proposition `warm` stands for the latter.

## Main definitions

* `past x t k`: what the stream `x` was `k` cycles before cycle `t`

## Main results

* `systolic_sum`: the sums of a systolic cascade
-/

namespace Clocked

variable {α R : Type} [Zero α] [AddCommMonoid R] {x : ℕ → α} {t k : ℕ}

/-- The stream `x`, `k` cycles before cycle `t`, and zero before its start. -/
def past (x : ℕ → α) (t k : ℕ) : α := if k ≤ t then x (t - k) else 0

theorem past_of_le (h : k ≤ t) : past x t k = x (t - k) := if_pos h

theorem past_of_lt (h : t < k) : past x t k = 0 := if_neg (by omega)

theorem past_succ_succ : past x (t + 1) (k + 1) = past x t k := by simp [past]

theorem past_sub {d : ℕ} (h : d ≤ t) : past x (t - d) k = past x t (k + d) := by
  rcases Nat.lt_or_ge t (k + d) with hlt | hge
  · rw [past_of_lt hlt, past_of_lt (by omega)]
  · rw [past_of_le hge, past_of_le (by omega), Nat.sub_sub, Nat.add_comm d k]

theorem past_map {β : Type} [Zero β] {g : α → β} (hg : g 0 = 0) :
    past (fun t => g (x t)) t k = g (past x t k) := by
  unfold past
  rw [apply_ite g, hg]

/-- **The sums of a systolic cascade**. Stage `i + 1` adds its term to the sum of stage `i`, one
cycle later, and is two cycles behind it in the data. -/
theorem systolic_sum {f : ℕ → α → R} {p : ℕ → ℕ → R} {n b : ℕ} (warm : Prop)
    (hf : ∀ i, f i 0 = 0) (h₀ : ∀ t, b ≤ t ∨ warm → p 0 t = f 0 (past x t b))
    (hs : ∀ i < n, ∀ t, b + 2 * i + 1 ≤ t ∨ warm →
      p (i + 1) (t + 1) = f (i + 1) (past x t (b + 2 * i + 1)) + p i t)
    (hz : warm → ∀ i ≤ n, p i 0 = 0) :
    ∀ i ≤ n, ∀ t, b + 2 * i ≤ t ∨ warm →
      p i t = ∑ j ∈ Finset.range (i + 1), f j (past x t (b + i + j)) := by
  intro i
  induction i with
  | zero =>
    intro _ t ht
    rw [h₀ t ht, Finset.sum_range_one]
    rfl
  | succ i ih =>
    intro hi t ht
    cases t with
    | zero =>
      -- only a warm cascade has a sum here, and nothing has been presented yet
      have hw : warm := ht.resolve_left (by omega)
      rw [hz hw (i + 1) hi]
      symm
      apply Finset.sum_eq_zero
      intro j _
      rw [past_of_lt (by omega), hf]
    | succ t =>
      have ht' : b + 2 * i + 1 ≤ t ∨ warm := ht.imp (fun h => by omega) id
      rw [hs i (by omega) t ht', ih (by omega) t (ht'.imp (fun h => by omega) id),
        Finset.sum_range_succ _ (i + 1), add_comm]
      congr 1
      · apply Finset.sum_congr rfl
        intro j _
        rw [show b + (i + 1) + j = b + i + j + 1 by omega, past_succ_succ]
      · rw [show b + (i + 1) + (i + 1) = b + 2 * i + 1 + 1 by omega, past_succ_succ]

end Clocked
