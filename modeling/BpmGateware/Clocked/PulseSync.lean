import BpmGateware.Clocked.Stretch

/-!
# Crossings between two clocks

A word written in one clock domain is read in another one. The writer keeps the word in a register
and raises a strobe for two of its cycles; the reader samples the strobe into a chain of three
registers and takes the word over when it sees the strobe rise behind the second of them. Time is
a stream of ticks, and each clock has its edges at some of them, in any order and also together: a
tick with an edge of both clocks updates both sides from the values before it.

Where the reader's clock is not slower than the writer's, every write is taken over, at the third
edge of the reader's clock after it. Then the crossing is no more than three registers in a row on
the word itself.

## Main definitions

* `Pace sys fs`: between two edges of `sys` there is one of `fs`
* `NthAfter fs n u t`: tick `t` has an edge of `fs`, with `n` of them between `u` and it
* `Strobe`, `Sync`: the strobe of the writer, the sampling chain of the reader
* `Crossing`: a strobe and a chain on the two clocks
* `sampled v z d`: the register that takes `d` at the edges of `v`

## Main results

* `Crossing.exists_start_of_fires`: the reader takes nothing over but at a third edge after a start
* `Crossing.fires_of_start`: with the pace of the clocks, it does so after every start
* `Crossing.fires_third_iff`: without it, exactly where the reader has an edge in the strobe
* `Crossing.out_eq_sampled`: the crossing of a word is three registers in a row
* `Crossing.arrives_iff`: the words that arrive, whatever the clocks
* `Crossing.read_fresh`: a word brought over on request was taken after the request
-/

namespace Clocked

/-! ## Counting the edges of a clock -/

section Count

variable {v : ℕ → Bool} {a b c t n : ℕ}

theorem card_strobes_mono (hab : a ≤ b) : (strobes v c a).card ≤ (strobes v c b).card :=
  Finset.card_le_card (Finset.filter_subset_filter _ (Finset.Ico_subset_Ico_right hab))

theorem card_strobes_anti (hab : a ≤ b) : (strobes v b c).card ≤ (strobes v a c).card :=
  Finset.card_le_card (Finset.filter_subset_filter _ (Finset.Ico_subset_Ico_left hab))

theorem card_strobes_add (hab : a ≤ b) (hbc : b ≤ c) :
    (strobes v a b).card + (strobes v b c).card = (strobes v a c).card := by
  induction c, hbc using Nat.le_induction with
  | base => rw [card_strobes_self, Nat.add_zero]
  | succ c hbc ih => rw [card_strobes_succ hbc, card_strobes_succ (hab.trans hbc), ← ih]; omega

theorem card_strobes_pos (hv : v b = true) (hab : a ≤ b) (hbc : b < c) :
    1 ≤ (strobes v a c).card := by
  apply Finset.card_pos.mpr
  exact ⟨b, by simp [strobes, hab, hbc, hv]⟩

/-- The edges after tick `a`, one tick later. -/
theorem card_strobes_after (hat : a < t) :
    (strobes v (a + 1) (t + 1)).card = (strobes v (a + 1) t).card + if v t then 1 else 0 :=
  card_strobes_succ hat

/-- The last edge never goes back. -/
theorem monotone_latest : Monotone fun t => (latest v t).elim 0 (· + 1) := by
  apply monotone_nat_of_le_succ
  intro t
  rw [latest_succ]
  by_cases hv : v t = true
  · rw [if_pos hv, Option.elim_some]
    cases hl : latest v t with
    | none => exact Nat.zero_le _
    | some x => exact Nat.succ_le_succ (latest_eq_some_iff.mp hl).1.le
  · rw [if_neg hv]

/-- No edge since `a`: the last one is older. -/
theorem card_strobes_eq_zero_iff :
    (strobes v a t).card = 0 ↔ ∀ z, latest v t = some z → z < a := by
  rw [Finset.card_eq_zero, strobes, Finset.filter_eq_empty_iff]
  constructor
  · intro h z hz
    obtain ⟨hzt, hvz, -⟩ := latest_eq_some_iff.mp hz
    by_contra hza
    exact h (Finset.mem_Ico.mpr ⟨by omega, hzt⟩) hvz
  · intro h x hx hvx
    rw [Finset.mem_Ico] at hx
    cases hl : latest v t with
    | none => simp [latest_eq_none_iff.mp hl x hx.2] at hvx
    | some z =>
      have hza := h z hl
      have := (latest_eq_some_iff.mp hl).2.2 x (by omega) hx.2
      simp [this] at hvx

/-- The edges since `a` are the last one and those before it. -/
theorem card_strobes_eq_succ_iff :
    (strobes v a t).card = n + 1 ↔
      ∃ z, latest v t = some z ∧ a ≤ z ∧ (strobes v a z).card = n := by
  have split : ∀ z, latest v t = some z → a ≤ z →
      (strobes v a t).card = (strobes v a z).card + 1 := by
    intro z hz haz
    obtain ⟨hzt, hvz, hno⟩ := latest_eq_some_iff.mp hz
    have hrest : (strobes v (z + 1) t).card = 0 := by
      rw [card_strobes_eq_zero_iff]
      intro y hy
      rw [hz, Option.some.injEq] at hy
      omega
    rw [← card_strobes_add (show a ≤ z + 1 by omega) (show z + 1 ≤ t by omega), hrest,
      card_strobes_succ haz, hvz, if_pos rfl]
  constructor
  · intro h
    by_contra hno
    have h0 : (strobes v a t).card = 0 := by
      rw [card_strobes_eq_zero_iff]
      intro z hz
      by_contra hza
      have := split z hz (by omega)
      exact hno ⟨z, hz, by omega, by omega⟩
    omega
  · rintro ⟨z, hz, haz, hn⟩
    rw [split z hz haz, hn]

/-- Tick `t` has an edge of `v`, and `n` of them lie between `u` and `t`. -/
def NthAfter (v : ℕ → Bool) (n u t : ℕ) : Prop :=
  u < t ∧ v t = true ∧ (strobes v (u + 1) t).card = n

/-- Where more than `n` edges have come since `u`, one of them was edge `n`. -/
theorem exists_nthAfter {u : ℕ} (h : n < (strobes v (u + 1) t).card) :
    ∃ x, x < t ∧ NthAfter v n u x := by
  induction t with
  | zero => simp [strobes] at h
  | succ t ih =>
    rcases Nat.lt_or_ge n (strobes v (u + 1) t).card with hlt | hge
    · obtain ⟨x, hx, hn⟩ := ih hlt
      exact ⟨x, by omega, hn⟩
    · have hut : u + 1 ≤ t := by
        by_contra hle
        rw [strobes, Finset.Ico_eq_empty (by omega)] at h
        simp at h
      rw [card_strobes_succ hut] at h
      by_cases hv : v t = true
      · rw [if_pos hv] at h
        exact ⟨t, by omega, by omega, hv, by omega⟩
      · rw [if_neg hv] at h
        omega

/-- A clock that does not stop has any number of edges after a tick. -/
theorem exists_card_strobes (hv : ∀ n, ∃ x, n ≤ x ∧ v x = true) (u n : ℕ) :
    ∃ t, n ≤ (strobes v (u + 1) t).card := by
  induction n with
  | zero => exact ⟨0, Nat.zero_le _⟩
  | succ n ih =>
    obtain ⟨t, ht⟩ := ih
    obtain ⟨x, hx, hvx⟩ := hv (max t (u + 1))
    refine ⟨x + 1, ?_⟩
    rw [card_strobes_succ (by omega), if_pos hvx]
    have := card_strobes_mono (v := v) (c := u + 1) (show t ≤ x by omega)
    omega

/-- Between two edges of `sys`, or at the second of them, there is an edge of `fs`. -/
def Pace (sys fs : ℕ → Bool) : Prop :=
  ∀ x y, Consecutive sys x y → ∃ z, x < z ∧ z ≤ y ∧ fs z = true

/-- **From an edge of the slower clock on, the faster one has had as many edges**. -/
theorem Pace.card_le {sys fs : ℕ → Bool} (h : Pace sys fs) {u t : ℕ} (hu : sys u = true) :
    (strobes sys (u + 1) t).card ≤ (strobes fs (u + 1) t).card := by
  -- Induction on the number of edges of `sys`: the last one comes with an edge of `fs`.
  induction hn : (strobes sys (u + 1) t).card generalizing t with
  | zero => omega
  | succ n ih =>
    obtain ⟨y, hy, huy, hny⟩ := card_strobes_eq_succ_iff.mp hn
    obtain ⟨hyt, hsy, -⟩ := latest_eq_some_iff.mp hy
    obtain ⟨x, hux, hxy⟩ : ∃ x, u ≤ x ∧ Consecutive sys x y := by
      cases hl : latest sys y with
      | none => simp [latest_eq_none_iff.mp hl u (by omega)] at hu
      | some x =>
        obtain ⟨hxy, hsx, hno⟩ := latest_eq_some_iff.mp hl
        refine ⟨x, ?_, hsx, hsy, hxy, hno⟩
        by_contra hxu
        simp [hno u (by omega) (by omega)] at hu
    obtain ⟨z, hxz, hzy, hfz⟩ := h x y hxy
    have hsplit := card_strobes_add (v := sys) (show u + 1 ≤ x + 1 by omega)
      (show x + 1 ≤ y by have := hxy.2.2.1; omega)
    have hgap : (strobes sys (x + 1) y).card = 0 := by
      rw [card_strobes_eq_zero_iff]
      intro q hq
      obtain ⟨hqy, hsq, -⟩ := latest_eq_some_iff.mp hq
      by_contra hqx
      simp [hxy.2.2.2 q (by omega) hqy] at hsq
    have hle := ih (t := x + 1) (by omega)
    have hadd := card_strobes_add (v := fs) (show u + 1 ≤ x + 1 by omega)
      (show x + 1 ≤ t by omega)
    have hpos := card_strobes_pos (a := x + 1) (c := t) hfz (by omega) (by omega)
    omega

end Count

/-! ## Registers of a clock -/

section Sampled

variable {α : Type} {v : ℕ → Bool} {z : α} {d r : ℕ → α} {t : ℕ}

/-- The register that starts with `z` and takes `d` at the edges of `v`. -/
def sampled (v : ℕ → Bool) (z : α) (d : ℕ → α) (t : ℕ) : α := (latest v t).elim z d

theorem sampled_succ (t : ℕ) :
    sampled v z d (t + 1) = if v t then d t else sampled v z d t := by
  rw [sampled, latest_succ]
  by_cases hv : v t = true
  · simp [hv]
  · simp [hv, sampled]

theorem sampled_of_latest {x : ℕ} (h : latest v t = some x) : sampled v z d t = d x := by
  simp [sampled, h]

theorem sampled_of_none (h : latest v t = none) : sampled v z d t = z := by simp [sampled, h]

/-- A register shows what its input has been since more than `k` edges after `u`. -/
theorem sampled_eq_of_card {u k : ℕ} {w : α} (hc : k < (strobes v (u + 1) t).card)
    (hd : ∀ x, u < x → x < t → k ≤ (strobes v (u + 1) x).card → d x = w) :
    sampled v z d t = w := by
  obtain ⟨n, hn⟩ := Nat.exists_eq_add_of_lt hc
  obtain ⟨x, hx, hux, hcx⟩ := card_strobes_eq_succ_iff.mp hn
  rw [sampled_of_latest hx]
  exact hd x hux (latest_eq_some_iff.mp hx).1 (by omega)

theorem eq_sampled (h₀ : r 0 = z) (h : ∀ t, r (t + 1) = if v t then d t else r t) (t : ℕ) :
    r t = sampled v z d t := by
  rw [hold_eq_latest (v := v) (d := d) (fun t _ => h t) (by simp) (Nat.zero_le t), h₀, sampled]

end Sampled

/-! ## The strobe and the chain -/

/-- What an edge of the writer's clock does to a strobe. -/
inductive StrobeOp
  | start
  | advance
  | hold
  deriving DecidableEq, Repr

/-- A strobe, and the register that keeps it up for a second cycle. -/
structure Strobe where
  strobe : Bool
  delay : Bool
  deriving DecidableEq, Repr

def Strobe.next (p : Strobe) : StrobeOp → Strobe
  | .start => ⟨true, true⟩
  | .advance => ⟨p.delay, false⟩
  | .hold => p

/-- A strobe that has been advanced `n` times. -/
def Strobe.after (n : ℕ) : Strobe := ⟨decide (n ≤ 1), decide (n = 0)⟩

theorem Strobe.after_advance (n : ℕ) : (after n).next .advance = after (n + 1) := by
  simp [after, next]

theorem Strobe.after_of_two_le {n : ℕ} (h : 2 ≤ n) : after n = ⟨false, false⟩ := by
  rw [after, decide_eq_false (by omega), decide_eq_false (by omega)]

/-- The registers of the reader that sample a strobe. -/
structure Sync where
  s0 : Bool
  s1 : Bool
  s2 : Bool
  deriving DecidableEq, Repr

def Sync.next (c : Sync) (strobe : Bool) : Sync := ⟨strobe, c.s0, c.s1⟩

/-- The strobe rises behind the second register of the chain. -/
def Sync.rise (c : Sync) : Bool := c.s1 && !c.s2

/-- The edges of the writer that start a strobe. -/
def starts (sys : ℕ → Bool) (op : ℕ → StrobeOp) (t : ℕ) : Bool := sys t && decide (op t = .start)

/-- The edges at which the reader takes a word over. -/
def fires (fs : ℕ → Bool) (c : ℕ → Sync) (t : ℕ) : Bool := fs t && (c t).rise

/-- **A strobe that crosses from `sys` to `fs`**. The two edges of `sys` after a start advance the
strobe; so the starts are at least three edges apart. -/
structure Crossing (sys fs : ℕ → Bool) (op : ℕ → StrobeOp) (p : ℕ → Strobe) (c : ℕ → Sync) :
    Prop where
  strobe_zero : p 0 = ⟨false, false⟩
  sync_zero : c 0 = ⟨false, false, false⟩
  strobe_succ : ∀ t, p (t + 1) = if sys t then (p t).next (op t) else p t
  sync_succ : ∀ t, c (t + 1) = if fs t then (c t).next (p t).strobe else c t
  advances : ∀ u x, starts sys op u = true → u < x → sys x = true →
    (strobes sys (u + 1) x).card ≤ 1 → op x = .advance

namespace Crossing

variable {sys fs : ℕ → Bool} {op : ℕ → StrobeOp} {p : ℕ → Strobe} {c : ℕ → Sync} {t u : ℕ}

theorem starts_eq_true : starts sys op t = true ↔ sys t = true ∧ op t = .start := by
  simp [starts]

/-- **The strobe is up for two edges of its clock after a start**. -/
theorem strobe_eq (h : Crossing sys fs op p c) (t : ℕ) :
    p t = (latest (starts sys op) t).elim ⟨false, false⟩ fun u =>
      Strobe.after (strobes sys (u + 1) t).card := by
  induction t with
  | zero => exact h.strobe_zero
  | succ t ih =>
    rw [h.strobe_succ, latest_succ]
    by_cases hs : sys t = true
    · rw [if_pos hs]
      cases ho : op t with
      | start =>
        rw [if_pos (starts_eq_true.mpr ⟨hs, ho⟩), Option.elim_some, card_strobes_self]
        rfl
      | advance =>
        rw [if_neg (by simp [starts, ho]), ih]
        cases hl : latest (starts sys op) t with
        | none => rfl
        | some u =>
          have hut := (latest_eq_some_iff.mp hl).1
          rw [Option.elim_some, Option.elim_some, card_strobes_after hut, if_pos hs,
            Strobe.after_advance]
      | hold =>
        rw [if_neg (by simp [starts, ho]), ih]
        cases hl : latest (starts sys op) t with
        | none => rfl
        | some u =>
          obtain ⟨hut, hu, -⟩ := latest_eq_some_iff.mp hl
          have hge : 2 ≤ (strobes sys (u + 1) t).card := by
            by_contra hlt
            simp [h.advances u t hu hut hs (by omega)] at ho
          rw [Option.elim_some, Option.elim_some, card_strobes_after hut, if_pos hs,
            Strobe.after_of_two_le hge, Strobe.after_of_two_le (Nat.le_add_right_of_le hge)]
          rfl
    · rw [if_neg hs, if_neg (by simp [starts, hs]), ih]
      cases hl : latest (starts sys op) t with
      | none => rfl
      | some u =>
        have hut := (latest_eq_some_iff.mp hl).1
        rw [Option.elim_some, Option.elim_some, card_strobes_after hut, if_neg hs]
        rfl

theorem strobe_eq_true (h : Crossing sys fs op p c) :
    (p t).strobe = true ↔
      ∃ u, latest (starts sys op) t = some u ∧ (strobes sys (u + 1) t).card ≤ 1 := by
  rw [h.strobe_eq]
  cases latest (starts sys op) t <;> simp [Strobe.after]

theorem s0_eq (h : Crossing sys fs op p c) (t : ℕ) :
    (c t).s0 = sampled fs false (fun z => (p z).strobe) t := by
  apply eq_sampled (r := fun t => (c t).s0) (by simp [h.sync_zero])
  intro t
  rw [h.sync_succ]
  split <;> rfl

theorem s1_eq (h : Crossing sys fs op p c) (t : ℕ) :
    (c t).s1 = sampled fs false (fun z => (c z).s0) t := by
  apply eq_sampled (r := fun t => (c t).s1) (by simp [h.sync_zero])
  intro t
  rw [h.sync_succ]
  split <;> rfl

theorem s2_eq (h : Crossing sys fs op p c) (t : ℕ) :
    (c t).s2 = sampled fs false (fun z => (c z).s1) t := by
  apply eq_sampled (r := fun t => (c t).s2) (by simp [h.sync_zero])
  intro t
  rw [h.sync_succ]
  split <;> rfl

/-- The edges of `fs` at which the reader takes a word over: two edges before, it sampled a strobe
that was down at the edge before that one. -/
theorem fires_eq_true (h : Crossing sys fs op p c) :
    fires fs c t = true ↔ fs t = true ∧ ∃ x z, latest fs t = some x ∧ latest fs x = some z ∧
      (p z).strobe = true ∧ sampled fs false (fun z => (p z).strobe) z = false := by
  simp only [fires, Sync.rise, Bool.and_eq_true, Bool.not_eq_true']
  refine and_congr_right fun hf => ?_
  rw [h.s1_eq, h.s2_eq]
  cases hx : latest fs t with
  | none => simp [sampled, hx]
  | some x =>
    rw [sampled_of_latest hx, sampled_of_latest hx, h.s0_eq, h.s1_eq]
    cases hz : latest fs x with
    | none => simp [sampled, hz]
    | some z =>
      rw [sampled_of_latest hz, sampled_of_latest hz, h.s0_eq]
      simp [hz]

/-- Two starts are at least three edges of their clock apart. -/
theorem two_le_card (h : Crossing sys fs op p c) {x : ℕ} (hu : starts sys op u = true)
    (hx : starts sys op x = true) (hux : u < x) : 2 ≤ (strobes sys (u + 1) x).card := by
  obtain ⟨hs, ho⟩ := starts_eq_true.mp hx
  by_contra hlt
  simp [h.advances u x hu hux hs (by omega)] at ho

/-- **The reader takes nothing over but at the third edge after a start**, whatever the clocks. -/
theorem exists_start_of_fires (h : Crossing sys fs op p c) (ht : fires fs c t = true) :
    ∃ u, starts sys op u = true ∧ NthAfter fs 2 u t := by
  obtain ⟨hf, x, z, hx, hz, hup, hdown⟩ := h.fires_eq_true.mp ht
  obtain ⟨u, hu, hcard⟩ := h.strobe_eq_true.mp hup
  obtain ⟨huz, hsu, hno⟩ := latest_eq_some_iff.mp hu
  obtain ⟨hzx, -, -⟩ := latest_eq_some_iff.mp hz
  obtain ⟨hxt, -, -⟩ := latest_eq_some_iff.mp hx
  -- an edge between the start and `z` would have sampled the same strobe
  have hfirst : (strobes fs (u + 1) z).card = 0 := by
    rw [card_strobes_eq_zero_iff]
    intro y hy
    by_contra hyu
    have hyz := (latest_eq_some_iff.mp hy).1
    rw [sampled_of_latest hy, ← Bool.not_eq_true] at hdown
    apply hdown
    apply h.strobe_eq_true.mpr
    refine ⟨u, latest_eq_some_iff.mpr ⟨by omega, hsu, ?_⟩, ?_⟩
    · exact fun q hq hqy => hno q hq (by omega)
    · exact (card_strobes_mono hyz.le).trans hcard
  refine ⟨u, hsu, by omega, hf, ?_⟩
  apply card_strobes_eq_succ_iff.mpr
  refine ⟨x, hx, by omega, ?_⟩
  exact card_strobes_eq_succ_iff.mpr ⟨z, hz, by omega, hfirst⟩

/-- **With the pace of the clocks, the third edge after every start takes its word over**. -/
theorem fires_of_start (h : Crossing sys fs op p c) (hp : Pace sys fs)
    (hu : starts sys op u = true) (ht : NthAfter fs 2 u t) : fires fs c t = true := by
  obtain ⟨hut, hf, hcard⟩ := ht
  obtain ⟨x, hx, hux, hcx⟩ := card_strobes_eq_succ_iff.mp hcard
  obtain ⟨z, hz, huz, hcz⟩ := card_strobes_eq_succ_iff.mp hcx
  have hsu := (starts_eq_true.mp hu).1
  have hquiet : (strobes sys (u + 1) z).card = 0 := by
    have := hp.card_le (t := z) hsu
    omega
  refine h.fires_eq_true.mpr ⟨hf, x, z, hx, hz, ?_, ?_⟩
  · apply h.strobe_eq_true.mpr
    refine ⟨u, latest_eq_some_iff.mpr ⟨by omega, hu, ?_⟩, by omega⟩
    intro q hq hqz
    by_contra hst
    have hsq := (starts_eq_true.mp (by simpa using hst)).1
    have := card_strobes_pos hsq (show u + 1 ≤ q from hq) hqz
    omega
  · by_contra hup
    rw [Bool.not_eq_false] at hup
    cases hy : latest fs z with
    | none => simp [sampled_of_none hy] at hup
    | some y =>
      rw [sampled_of_latest hy] at hup
      obtain ⟨v, hv, hcard'⟩ := h.strobe_eq_true.mp hup
      obtain ⟨hvy, hsv, -⟩ := latest_eq_some_iff.mp hv
      have hyu := card_strobes_eq_zero_iff.mp hcz y hy
      have hsplit := card_strobes_add (v := sys) (show v + 1 ≤ y by omega) (show y ≤ u by omega)
      have htwo := h.two_le_card hsv hu (by omega)
      -- so an edge of the writer lies between `y` and the start, and one of the reader after it
      obtain ⟨q, hq, hyq, -⟩ := card_strobes_eq_succ_iff (v := sys) (a := y) (t := u)
        (n := (strobes sys y u).card - 1) |>.mp (by omega)
      obtain ⟨hqu, hsq, hno⟩ := latest_eq_some_iff.mp hq
      obtain ⟨r, hqr, hru, hfr⟩ := hp q u ⟨hsq, hsu, hqu, hno⟩
      simp [(latest_eq_some_iff.mp hy).2.2 r (by omega) (by omega)] at hfr

/-- A word that is taken over after `u`, with the chain quiet then, was sampled after `u`. -/
theorem exists_sample_of_fires (h : Crossing sys fs op p c) (ht : fires fs c t = true)
    (hut : u < t) (h0 : (c (u + 1)).s0 = false) (h1 : (c (u + 1)).s1 = false) :
    ∃ x, u < x ∧ x < t ∧ fs x = true ∧ (p x).strobe = true := by
  obtain ⟨-, x, z, hx, hz, hup, -⟩ := h.fires_eq_true.mp ht
  obtain ⟨hxt, hfx, hnox⟩ := latest_eq_some_iff.mp hx
  obtain ⟨hzx, hfz, hnoz⟩ := latest_eq_some_iff.mp hz
  by_contra hno
  have hzu : z ≤ u := by
    by_contra hlt
    exact hno ⟨z, by omega, by omega, hfz, hup⟩
  -- the sample is still in the chain at `u`, in one of its first two registers
  rcases Nat.lt_or_ge u x with hux | hxu
  · have hl : latest fs (u + 1) = some z :=
      latest_eq_some_iff.mpr ⟨by omega, hfz, fun q hq hq' => hnoz q hq (by omega)⟩
    rw [h.s0_eq, sampled_of_latest hl, hup] at h0
    cases h0
  · have hl : latest fs (u + 1) = some x :=
      latest_eq_some_iff.mpr ⟨by omega, hfx, fun q hq hq' => hnox q hq (by omega)⟩
    rw [h.s1_eq, sampled_of_latest hl, h.s0_eq, sampled_of_latest hz, hup] at h1
    cases h1

/-- **The third edge after a start takes its word over exactly if an edge of the reader samples the
strobe**, with the chain quiet before and no other start. -/
theorem fires_third_iff (h : Crossing sys fs op p c) (hu : starts sys op u = true)
    (hno : ∀ x, u < x → x < t → starts sys op x = false) (h0 : (c (u + 1)).s0 = false)
    (h1 : (c (u + 1)).s1 = false) (ht : NthAfter fs 2 u t) :
    fires fs c t = true ↔
      ∃ x, u < x ∧ x < t ∧ fs x = true ∧ (strobes sys (u + 1) x).card ≤ 1 := by
  have hlast : ∀ x, u < x → x < t → latest (starts sys op) x = some u := fun x hux hxt =>
    latest_eq_some_iff.mpr ⟨hux, hu, fun q hq hqx => hno q hq (by omega)⟩
  constructor
  · intro hf
    obtain ⟨x, hux, hxt, hfx, hup⟩ := h.exists_sample_of_fires hf ht.1 h0 h1
    obtain ⟨v, hv, hcard⟩ := h.strobe_eq_true.mp hup
    rw [hlast x hux hxt, Option.some.injEq] at hv
    exact ⟨x, hux, hxt, hfx, hv ▸ hcard⟩
  · rintro ⟨q, huq, hqt, hfq, hcq⟩
    obtain ⟨hut, hft, hcard⟩ := ht
    obtain ⟨x, hx, hux, hcx⟩ := card_strobes_eq_succ_iff.mp hcard
    obtain ⟨z, hz, huz, hcz⟩ := card_strobes_eq_succ_iff.mp hcx
    have hxt := (latest_eq_some_iff.mp hx).1
    have hzx := (latest_eq_some_iff.mp hz).1
    refine h.fires_eq_true.mpr ⟨hft, x, z, hx, hz, ?_, ?_⟩
    · have hzq : z ≤ q := by
        by_contra hlt
        have := card_strobes_pos hfq (show u + 1 ≤ q from huq) (show q < z by omega)
        omega
      apply h.strobe_eq_true.mpr
      exact ⟨u, hlast z (by omega) (by omega), (card_strobes_mono hzq).trans hcq⟩
    · rw [← h.s0_eq, ← h0]
      apply hold_between (g := fun x => (c x).s0) huz
      intro y huy hyz
      have hfy : fs y = false := by
        by_contra hfy
        have := card_strobes_pos (v := fs) (by simpa using hfy) huy hyz
        omega
      rw [h.sync_succ, if_neg (by simp [hfy])]

/-- The edges of the reader that take over nothing saw no start between the two samples they
compare. -/
theorem no_start_of_not_fires (h : Crossing sys fs op p c) (hp : Pace sys fs) {x z : ℕ}
    (hf : fs t = true) (ht : fires fs c t = false) (hx : latest fs t = some x)
    (hz : latest fs x = some z) (hu : (strobes fs (u + 1) z).card = 0) (huz : u < z) :
    starts sys op u = false := by
  by_contra hs
  have hxt := (latest_eq_some_iff.mp hx).1
  have hzx := (latest_eq_some_iff.mp hz).1
  have hcx := card_strobes_eq_succ_iff.mpr ⟨z, hz, huz, hu⟩
  have hct := card_strobes_eq_succ_iff.mpr ⟨x, hx, by omega, hcx⟩
  rw [h.fires_of_start hp (by simpa using hs) ⟨by omega, hf, hct⟩] at ht
  exact Bool.false_ne_true ht.symm

/-! ## Words -/

section Word

variable {α : Type} {z : α} {w d o : ℕ → α}

/-- **The crossing of a word is three registers in a row**: with the pace of the clocks, what the
reader holds is the writer's register as it was three edges of the reader's clock ago. -/
theorem out_eq_sampled (h : Crossing sys fs op p c) (hp : Pace sys fs) (hw₀ : w 0 = z)
    (hw : ∀ t, w (t + 1) = if starts sys op t then d t else w t) (ho₀ : o 0 = z)
    (ho : ∀ t, o (t + 1) = if fires fs c t then w t else o t) (t : ℕ) :
    o t = sampled fs z (sampled fs z (sampled fs z w)) t := by
  have hold : ∀ a b, a ≤ b → (∀ u, a ≤ u → u < b → starts sys op u = false) →
      w b = w a := by
    intro a b hab hno
    apply hold_between hab
    intro x hax hxb
    rw [hw, if_neg (by simp [hno x hax hxb])]
  induction t with
  | zero => exact ho₀
  | succ t ih =>
    rw [ho, sampled_succ]
    by_cases hf : fs t = true
    · rw [if_pos hf]
      cases hfire : fires fs c t with
      | true =>
        obtain ⟨u, hu, hut, -, hcard⟩ := h.exists_start_of_fires hfire
        obtain ⟨x, hx, hux, hcx⟩ := card_strobes_eq_succ_iff.mp hcard
        obtain ⟨y, hy, huy, -⟩ := card_strobes_eq_succ_iff.mp hcx
        have hxt := (latest_eq_some_iff.mp hx).1
        have hyx := (latest_eq_some_iff.mp hy).1
        rw [if_pos rfl, sampled_of_latest hx, sampled_of_latest hy]
        -- the writer does not start again before its word has been taken over
        apply hold y t (by omega)
        intro q hyq hqt
        by_contra hsq
        have hsq : starts sys op q = true := by simpa using hsq
        have htwo := h.two_le_card hu hsq (by omega)
        have hle := hp.card_le (t := q + 1) (starts_eq_true.mp hu).1
        rw [card_strobes_after (show u < q by omega), if_pos (starts_eq_true.mp hsq).1] at hle
        have := card_strobes_mono (v := fs) (c := u + 1) (show q + 1 ≤ t from hqt)
        omega
      | false =>
        rw [if_neg Bool.false_ne_true, ih]
        cases hx : latest fs t with
        | none => rw [sampled_of_none hx, sampled_of_none hx]
        | some x =>
          rw [sampled_of_latest hx, sampled_of_latest hx]
          cases hy : latest fs x with
          | none => rw [sampled_of_none hy, sampled_of_none hy]
          | some y =>
            rw [sampled_of_latest hy, sampled_of_latest hy]
            have quiet : ∀ u < y, (strobes fs (u + 1) y).card = 0 → starts sys op u = false :=
              fun u huy hu => h.no_start_of_not_fires hp hf hfire hx hy hu huy
            cases hq : latest fs y with
            | none =>
              rw [sampled_of_none hq, ← hw₀]
              symm
              apply hold 0 y (Nat.zero_le y)
              intro u _ huy
              apply quiet u huy
              rw [card_strobes_eq_zero_iff]
              simp [hq]
            | some q =>
              rw [sampled_of_latest hq]
              symm
              apply hold q y (latest_eq_some_iff.mp hq).1.le
              intro u hqu huy
              apply quiet u huy
              rw [card_strobes_eq_zero_iff, hq]
              rintro r ⟨⟩
              omega
    · rw [if_neg hf, if_neg (by simp [fires, hf]), ih]

/-- **A word arrives exactly if the reader has an edge while its strobe is up**, whatever the
clocks: the last word, with the chain quiet when it was written, is ever held by the reader only
then. -/
theorem arrives_iff (h : Crossing sys fs op p c)
    (hw : ∀ t, w (t + 1) = if starts sys op t then d t else w t)
    (ho : ∀ t, o (t + 1) = if fires fs c t then w t else o t)
    (hu : starts sys op u = true) (hno : ∀ x, u < x → starts sys op x = false)
    (h0 : (c (u + 1)).s0 = false) (h1 : (c (u + 1)).s1 = false) (hne : o (u + 1) ≠ d u)
    (hfs : ∀ n, ∃ x, n ≤ x ∧ fs x = true) :
    (∃ t, u < t ∧ o t = d u) ↔
      ∃ x, u < x ∧ fs x = true ∧ (strobes sys (u + 1) x).card ≤ 1 := by
  constructor
  · rintro ⟨t, hut, ht⟩
    obtain ⟨y, huy, hyt, hf⟩ : ∃ y, u < y ∧ y < t ∧ fires fs c y = true := by
      by_contra hnone
      apply hne
      rw [← ht]
      symm
      apply hold_between hut
      intro y huy hyt
      rw [ho, if_neg fun hf => hnone ⟨y, huy, hyt, hf⟩]
    obtain ⟨x, hux, -, hfx, hup⟩ := h.exists_sample_of_fires hf huy h0 h1
    obtain ⟨v, hv, hcard⟩ := h.strobe_eq_true.mp hup
    have hvu : latest (starts sys op) x = some u :=
      latest_eq_some_iff.mpr ⟨hux, hu, fun q hq _ => hno q hq⟩
    rw [hvu, Option.some.injEq] at hv
    exact ⟨x, hux, hfx, hv ▸ hcard⟩
  · rintro ⟨x, hux, hfx, hcard⟩
    obtain ⟨b, hb⟩ := exists_card_strobes hfs u 3
    obtain ⟨t, -, ht⟩ := exists_nthAfter (v := fs) (n := 2) (u := u) (t := b) (by omega)
    obtain ⟨z, hzt, huz, hfz, hcz⟩ := exists_nthAfter (v := fs) (n := 0) (u := u) (t := t)
      (by rw [ht.2.2]; omega)
    have hzx : z ≤ x := by
      by_contra hlt
      have := card_strobes_pos hfx (show u + 1 ≤ x from hux) (show x < z by omega)
      omega
    have hf := (h.fires_third_iff hu (fun y hy _ => hno y hy) h0 h1 ht).mpr
      ⟨z, huz, hzt, hfz, (card_strobes_mono hzx).trans hcard⟩
    refine ⟨t + 1, by have := ht.1; omega, ?_⟩
    have hload : w (u + 1) = d u := by rw [hw, if_pos hu]
    rw [ho, if_pos hf, ← hload]
    apply hold_between ht.1
    intro y huy _
    rw [hw, if_neg (by simp [hno y huy])]

/-- **A word brought over on request is fresh**: three edges of the requesting clock after the
request, and up to the next one, it is what the source showed at the third edge of its own clock
after the request. -/
theorem read_fresh (h : Crossing sys fs op p c) (hp : Pace sys fs) {s : ℕ → α}
    (ho : ∀ t, o (t + 1) = if fires fs c t then s t else o t) {y : ℕ}
    (hu : starts sys op u = true) (hy : 3 ≤ (strobes sys (u + 1) y).card)
    (hno : ∀ x, u < x → x < y → starts sys op x = false) :
    ∃ x, x < y ∧ NthAfter fs 2 u x ∧ o y = s x := by
  have hle := hp.card_le (t := y) (starts_eq_true.mp hu).1
  obtain ⟨x, hxy, hx⟩ := exists_nthAfter (v := fs) (n := 2) (u := u) (t := y) (by omega)
  refine ⟨x, hxy, hx, ?_⟩
  have hload : o (x + 1) = s x := by rw [ho, if_pos (h.fires_of_start hp hu hx)]
  rw [← hload]
  apply hold_between hxy
  intro q hxq hqy
  rw [ho, if_neg]
  intro hfire
  -- a later edge that takes something over belongs to a later request
  obtain ⟨v, hv, hvq, hfq, hcard⟩ := h.exists_start_of_fires hfire
  have hvu : v ≤ u := by
    by_contra hlt
    rw [hno v (by omega) (by omega)] at hv
    exact Bool.false_ne_true hv
  obtain ⟨hux, hfx, hcx⟩ := hx
  have hsplit := card_strobes_add (v := fs) (show u + 1 ≤ x by omega) (show x ≤ q by omega)
  have hpos := card_strobes_pos hfx le_rfl (show x < q by omega)
  have hanti := card_strobes_anti (v := fs) (c := q) (show v + 1 ≤ u + 1 by omega)
  omega

end Word

end Crossing

end Clocked
