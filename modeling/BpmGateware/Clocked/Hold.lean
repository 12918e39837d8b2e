import Mathlib.Tactic.Common
import Mathlib.Order.Interval.Finset.Nat

/-!
# Registers that hold

Between two loads a clocked register keeps its value, so what it shows is decided by the last
edge at which it was loaded. This module reads streams of registers that way: registers loaded
on a valid strobe, pipelines of them, and latches with a set and a clear.

## Main definitions

* `latest v t`: the last cycle before `t` with `v`
* `delay k v`: the stream `v` seen `k` cycles later
* `Spaced k v`: strobes at least `k` cycles apart
* `Consecutive v u x`: two strobes with none between them
* `OnceBetween v c`: at most one pulse of `c` between two strobes of `v`
* `changes l t`: the level `l` changes at edge `t`
* `RaisedAt l t e`: edge `e` raised the level that is up at cycle `t`
* `strobes v a b`: the strobes from cycle `a` up to cycle `b`
* `LatchedAt set clr t e`: edge `e` sets a latch and no edge from `e` to `t` clears it

## Main results

* `latest_eq_some_iff`, `latest_eq_none_iff`: what the last strobe is
* `latest_delay`: the last strobe of a delayed stream
* `hold_eq_latest`, `hold_delay_eq_latest`: a register loaded on `v` shows what it was given at
  the last `v`
* `hold_agree`: two registers loaded alike agree from the first load on
* `latch_eq_true_iff`: a set/clear latch is an exact history of its set and clear
-/

namespace Clocked

/-! ## The last strobe -/

section Latest

variable {v : ℕ → Bool} {t u : ℕ}

/-- The last cycle before `t` at which `v` is up. -/
def latest (v : ℕ → Bool) : ℕ → Option ℕ
  | 0 => none
  | t + 1 => if v t then some t else latest v t

@[simp] theorem latest_zero : latest v 0 = none := rfl

theorem latest_succ (t : ℕ) : latest v (t + 1) = if v t then some t else latest v t := rfl

theorem latest_eq_some_iff :
    latest v t = some u ↔ u < t ∧ v u = true ∧ ∀ x, u < x → x < t → v x = false := by
  -- Induction on the cycle: the last strobe is the new cycle, or the last one before it.
  induction t with
  | zero => simp
  | succ t ih =>
    rw [latest_succ]
    by_cases hv : v t = true
    · rw [if_pos hv]
      constructor
      · intro h
        obtain rfl : t = u := Option.some.inj h
        exact ⟨by omega, hv, fun x hx hx' => by omega⟩
      · rintro ⟨hu, -, hno⟩
        rcases Nat.lt_or_ge u t with hlt | hge
        · have := hno t hlt (by omega)
          simp [this] at hv
        · rw [show u = t by omega]
    · rw [if_neg hv, ih]
      constructor
      · rintro ⟨hu, hvu, hno⟩
        refine ⟨by omega, hvu, ?_⟩
        intro x hx hx'
        rcases Nat.lt_or_ge x t with hlt | hge
        · exact hno x hx hlt
        · simpa [show x = t by omega] using hv
      · rintro ⟨hu, hvu, hno⟩
        have hne : u ≠ t := by rintro rfl; exact hv hvu
        exact ⟨by omega, hvu, fun x hx hx' => hno x hx (by omega)⟩

theorem latest_eq_none_iff : latest v t = none ↔ ∀ x < t, v x = false := by
  induction t with
  | zero => simp
  | succ t ih =>
    rw [latest_succ]
    constructor
    · intro h x hx
      by_cases hv : v t = true
      · simp [hv] at h
      · rw [if_neg hv] at h
        rcases Nat.lt_or_ge x t with hlt | hge
        · exact ih.mp h x hlt
        · simpa [show x = t by omega] using hv
    · intro h
      rw [if_neg (by simp [h t (by omega)])]
      exact ih.mpr fun x hx => h x (by omega)

/-- Strobes are at least `k` cycles apart. -/
def Spaced (k : ℕ) (v : ℕ → Bool) : Prop :=
  ∀ u x, v u = true → u < x → x < u + k → v x = false

/-- After a strobe of a spaced stream, it stays the last one. -/
theorem Spaced.latest_eq {k : ℕ} (hv : Spaced k v) (hu : v u = true) (hut : u < t)
    (htk : t ≤ u + k) : latest v t = some u :=
  latest_eq_some_iff.mpr ⟨hut, hu, fun x hx hx' => hv u x hu hx (by omega)⟩

/-- `x` is the next strobe after `u`. -/
def Consecutive (v : ℕ → Bool) (u x : ℕ) : Prop :=
  v u = true ∧ v x = true ∧ u < x ∧ ∀ y, u < y → y < x → v y = false

/-- A strobe is followed by a next one, or is the last of all. -/
theorem exists_consecutive_or_last (hu : v u = true) :
    (∃ x, Consecutive v u x) ∨ ∀ y, u < y → v y = false := by
  by_cases h : ∃ x, u < x ∧ v x = true
  · classical
    obtain ⟨hx, hvx⟩ := Nat.find_spec h
    left
    refine ⟨Nat.find h, hu, hvx, hx, ?_⟩
    intro y hy hy'
    have := Nat.find_min h hy'
    simpa [hy] using this
  · right
    intro y hy
    simpa [hy] using fun hv => h ⟨y, hy, hv⟩

/-- From the first strobe of `v` on, the pulses of `c` have a strobe between any two of them, or at
one of them. -/
def OnceBetween (v c : ℕ → Bool) : Prop :=
  ∀ u x y, v u = true → u < x → x < y → c x = true → c y = true → ∃ z, x ≤ z ∧ z ≤ y ∧ v z = true

/-- Of three cycles after a strobe, with no other one near, one is free of the pulses of `c` and
followed by a cycle free of the pulses of `d`. -/
theorem exists_free_cycle {c d : ℕ → Bool} {m : ℕ} (hc : OnceBetween v c) (hd : OnceBetween v d)
    (hu : v u = true) (hum : u < m) (hv : ∀ x, m ≤ x → x ≤ m + 3 → v x = false) :
    ∃ x, m ≤ x ∧ x ≤ m + 2 ∧ c x = false ∧ d (x + 1) = false := by
  have once : ∀ e, OnceBetween v e → ∀ x y, m ≤ x → x < y → y ≤ m + 3 → e x = true →
      e y = false := by
    intro e he x y hx hxy hy hex
    by_contra hey
    obtain ⟨z, hxz, hzy, hvz⟩ := he u x y hu (by omega) hxy hex (by simpa using hey)
    simp [hv z (by omega) (by omega)] at hvz
  by_cases hc₀ : c m = true
  · have hc₁ := once c hc m (m + 1) le_rfl (by omega) (by omega) hc₀
    have hc₂ := once c hc m (m + 2) le_rfl (by omega) (by omega) hc₀
    by_cases hd₂ : d (m + 2) = true
    · exact ⟨m + 2, by omega, by omega, hc₂,
        once d hd (m + 2) (m + 3) (by omega) (by omega) (by omega) hd₂⟩
    · exact ⟨m + 1, by omega, by omega, hc₁, by simpa using hd₂⟩
  · by_cases hd₁ : d (m + 1) = true
    · have hd₂ := once d hd (m + 1) (m + 2) (by omega) (by omega) (by omega) hd₁
      have hd₃ := once d hd (m + 1) (m + 3) (by omega) (by omega) (by omega) hd₁
      by_cases hc₁ : c (m + 1) = true
      · exact ⟨m + 2, by omega, by omega,
          once c hc (m + 1) (m + 2) (by omega) (by omega) (by omega) hc₁, hd₃⟩
      · exact ⟨m + 1, by omega, by omega, by simpa using hc₁, hd₂⟩
    · exact ⟨m, le_rfl, by omega, by simpa using hc₀, by simpa using hd₁⟩

/-- The stream `v`, `k` cycles later, down before it starts. -/
def delay (k : ℕ) (v : ℕ → Bool) (t : ℕ) : Bool := decide (k ≤ t) && v (t - k)

theorem delay_add (k : ℕ) (t : ℕ) : delay k v (t + k) = v t := by simp [delay]

theorem delay_of_lt {k : ℕ} (h : t < k) : delay k v t = false := by simp [delay]; omega

theorem latest_delay (k t : ℕ) : latest (delay k v) t = (latest v (t - k)).map (· + k) := by
  induction t with
  | zero => simp
  | succ t ih =>
    rw [latest_succ, ih]
    rcases Nat.lt_or_ge t k with hlt | hge
    · simp [delay_of_lt hlt, show t + 1 - k = 0 by omega, show t - k = 0 by omega]
    · rw [show t + 1 - k = (t - k) + 1 by omega, latest_succ]
      have hd : delay k v t = v (t - k) := by simp [delay, hge]
      rw [hd]
      by_cases hv : v (t - k) = true
      · simp [hv, Nat.sub_add_cancel hge]
      · simp [hv]

end Latest

/-! ## Edges and counts -/

section Count

variable {v l : ℕ → Bool} {a b t : ℕ}

/-- Edge `t`, which leads from cycle `t` to the next, changes the level. -/
def changes (l : ℕ → Bool) (t : ℕ) : Bool := l (t + 1) != l t

theorem changes_eq_true : changes l t = true ↔ l (t + 1) ≠ l t := by simp [changes]

theorem changes_eq_false : changes l t = false ↔ l (t + 1) = l t := by simp [changes]

/-- Edge `e` has raised the level that is up at cycle `t`: it was down before, and is up since. -/
structure RaisedAt (l : ℕ → Bool) (t e : ℕ) : Prop where
  lt : e < t
  down : l e = false
  up : ∀ x, e < x → x ≤ t → l x = true

/-- A level that was down has been raised by an edge since. -/
theorem exists_raisedAt {t₀ : ℕ} (h₀ : l t₀ = false) (ht : t₀ ≤ t) (hl : l t = true) :
    ∃ e, t₀ ≤ e ∧ RaisedAt l t e := by
  induction t, ht using Nat.le_induction with
  | base => simp [h₀] at hl
  | succ t ht ih =>
    cases hlt : l t with
    | false =>
      refine ⟨t, ht, Nat.lt_succ_self t, hlt, ?_⟩
      intro x hx hx'
      rwa [show x = t + 1 by omega]
    | true =>
      obtain ⟨e, he, hr⟩ := ih hlt
      refine ⟨e, he, hr.lt.trans (Nat.lt_succ_self t), hr.down, ?_⟩
      intro x hx hx'
      rcases Nat.lt_or_eq_of_le hx' with hlt' | rfl
      · exact hr.up x hx (Nat.lt_succ_iff.mp hlt')
      · exact hl

/-- The strobes from cycle `a` on and before cycle `b`. -/
def strobes (v : ℕ → Bool) (a b : ℕ) : Finset ℕ := {x ∈ Finset.Ico a b | v x = true}

theorem card_strobes_self : (strobes v a a).card = 0 := by simp [strobes]

theorem card_strobes_succ (h : a ≤ b) :
    (strobes v a (b + 1)).card = (strobes v a b).card + if v b then 1 else 0 := by
  rw [strobes, strobes, Nat.Ico_succ_right_eq_insert_Ico h, Finset.filter_insert]
  by_cases hv : v b = true
  · rw [if_pos hv, if_pos hv, Finset.card_insert_of_notMem (by simp)]
  · rw [if_neg hv, if_neg hv, Nat.add_zero]

end Count

/-! ## Registers loaded on a strobe -/

section Hold

variable {α : Type} {v : ℕ → Bool} {d r : ℕ → α} {t₀ : ℕ}

/-- **A loaded register shows its last load**: from cycle `t₀` on, and up to the first load
after it, what it showed at `t₀`. -/
theorem hold_eq_latest (hr : ∀ t, t₀ ≤ t → r (t + 1) = if v t then d t else r t)
    (hv : ∀ t < t₀, v t = false) {t : ℕ} (ht : t₀ ≤ t) :
    r t = (latest v t).elim (r t₀) d := by
  induction t, ht using Nat.le_induction with
  | base => rw [latest_eq_none_iff.mpr hv]; rfl
  | succ t ht ih =>
    rw [hr t ht, latest_succ]
    by_cases hvt : v t = true
    · simp [hvt]
    · simp [hvt, ih]

/-- The same for a register at the end of a pipeline: the strobe and the data it was given reach
it `k` cycles late. -/
theorem hold_delay_eq_latest {k : ℕ}
    (hr : ∀ t, t₀ ≤ t → r (t + 1) = if delay k v t then d (t - k) else r t)
    (hv : ∀ t, t + k < t₀ → v t = false) {t : ℕ} (ht : t₀ ≤ t) :
    r t = (latest v (t - k)).elim (r t₀) d := by
  have hq : ∀ t < t₀, delay k v t = false := by
    intro t ht
    rcases Nat.lt_or_ge t k with hlt | hge
    · exact delay_of_lt hlt
    · simp [delay, hv (t - k) (by omega)]
  -- the register is loaded on the delayed strobe with delayed data; both delays cancel
  rw [hold_eq_latest (d := fun t => d (t - k)) hr hq ht, latest_delay]
  cases latest v (t - k) <;> simp

/-- **Two registers agree from their first load on**, where they are loaded at the same edges with
the same data. -/
theorem hold_agree {e q : ℕ → α} (hr : ∀ t, r (t + 1) = if v t then d t else r t)
    (hq : ∀ t, q (t + 1) = if v t then e t else q t) (hd : ∀ t, v t = true → d t = e t)
    {x t : ℕ} (hx : v x = true) (hxt : x < t) : r t = q t := by
  induction t, hxt using Nat.le_induction with
  | base =>
    rw [hr, hq, if_pos hx, if_pos hx, hd x hx]
  | succ t _ ih =>
    rw [hr, hq, ih]
    by_cases hv : v t = true
    · rw [if_pos hv, if_pos hv, hd t hv]
    · rw [if_neg hv, if_neg hv]

end Hold

/-! ## Latches -/

section Latch

variable {set clr l : ℕ → Bool} {t₀ : ℕ}

/-- Edge `e` sets the latch, and no edge from `e` up to cycle `t` clears it. -/
def LatchedAt (set clr : ℕ → Bool) (t e : ℕ) : Prop :=
  e < t ∧ set e = true ∧ ∀ x, e ≤ x → x < t → clr x = false

/-- **A latch is an exact history**: a latch that is down at `t₀`, and that a clear takes down
before a set puts it up, is up exactly when some edge set it after the last clear. -/
theorem latch_eq_true_iff
    (hl : ∀ t, t₀ ≤ t → l (t + 1) = if clr t then false else if set t then true else l t)
    (h₀ : l t₀ = false) {t : ℕ} (ht : t₀ ≤ t) :
    l t = true ↔ ∃ e, t₀ ≤ e ∧ LatchedAt set clr t e := by
  -- Induction on the cycle: a set at the last edge is its own history, anything else is older.
  induction t, ht using Nat.le_induction with
  | base =>
    simp only [h₀, Bool.false_eq_true, false_iff, not_exists, not_and]
    exact fun e he h => absurd h.1 (by omega)
  | succ t ht ih =>
    rw [hl t ht]
    constructor
    · intro h
      by_cases hc : clr t = true
      · simp [hc] at h
      · have hc' : clr t = false := by simpa using hc
        by_cases hs : set t = true
        · exact ⟨t, ht, by omega, hs, fun x hx hx' => by rwa [show x = t by omega]⟩
        · obtain ⟨e, he, het, hse, hce⟩ := ih.mp (by simpa [hc, hs] using h)
          refine ⟨e, he, by omega, hse, ?_⟩
          intro x hx hx'
          rcases Nat.lt_or_ge x t with hlt | hge
          · exact hce x hx hlt
          · rwa [show x = t by omega]
    · rintro ⟨e, he, het, hse, hce⟩
      rw [if_neg (by simp [hce t (by omega) (by omega)])]
      by_cases hs : set t = true
      · simp [hs]
      · have hne : e ≠ t := by rintro rfl; exact hs hse
        rw [if_neg hs]
        exact ih.mpr ⟨e, he, by omega, hse, fun x hx hx' => hce x hx (by omega)⟩

end Latch

end Clocked
