import BpmGateware.BpmSwap.Period

/-!
# The tags of the data rates

`wb_position_calc_core` marks the samples of its slower data rates with tags: three more generators
`swap_freqgen`, in the mode with deswap, divide the clock by the ratio of the rate, and give the
delayed deswap command as the tag. The tag of the turn-by-turn rate counts every edge of `fs_clk_i`,
the others the valids of the rate before. All of them and the switching itself get one trigger,
`sync_trig_slow_i`.

After a trigger that a generator stores, its clock changes on a grid that starts where the trigger
is served. So two generators that count the same edges, one by a multiple of the other, change
together.

## Main definitions

* `Ratio`: a data rate ratio, with the width of its setting
* `CoreIn`, `tbtTagIn`, `monit1TagIn`, `monitTagIn`: the ports of the three generators
* `deswapOf`: `deswap_o` of a generator, which is the tag
* `Synced`: a generator between a trigger and the next one

## Main results

* `change_iff_grid`: the changes of a divider that was restarted
* `tag_on_grid`: a tag, after a trigger
* `tags_aligned`: when the tag of the turn-by-turn rate changes with the switching
-/

namespace PositionCalc

open Clocked BpmSwap

/-! ## The grid of a restarted divider -/

section Grid

variable {w : ℕ} {D : BitVec w} {inp : ℕ → FreqIn w} {s : Freq} {b t e n x : ℕ}

/-- A stored trigger restarts the divider at the next counted edge. -/
theorem restarted (h : Driven inp D) (hs : s.Settled D) (ht : (inp t).syncTrig = true)
    (hk : ¬ (run freqStep s inp t).Drops) (hte : t < e) (he : (inp e).counted = true)
    (hfirst : ∀ x, t < x → x < e → (inp x).counted = false) (hq : (inp e).syncTrig = false) :
    (run freqStep s inp (e + 1)).phase = ⟨0, true, false⟩ := by
  have hp := synchPending_run h hs ht hk hte hfirst
  rw [run_succ, phase_served (settled_run h hs e) (h.rstN e) he hp, hq]
  rfl

/-- One edge of a settled divider with nothing pending and no trigger. -/
theorem quiet_edge (h : Driven inp D) (hs : s.Settled D) (hq : (inp x).syncTrig = false)
    (hp : (run freqStep s inp x).phase.synchPending = false) :
    (run freqStep s inp (x + 1)).phase.synchPending = false ∧
      ((run freqStep s inp (x + 1)).phase.count =
        if (inp x).counted = false then (run freqStep s inp x).phase.count
        else if (run freqStep s inp x).phase.count = D.toNat - 1 then 0
        else (run freqStep s inp x).phase.count + 1) ∧
      (changes (clkSwapOf s inp) x = true ↔
        (inp x).counted = true ∧ (run freqStep s inp x).phase.count = D.toNat - 1) := by
  have hset := settled_run h hs x
  have hserve : (run freqStep s inp x).serves (inp x) = false := by
    rw [Freq.serves, hp, Bool.and_false]
  obtain ⟨hcount, hchange⟩ := free_edge (h.rstN x) hserve hset.cnst hset.old
  refine ⟨?_, hcount, ?_⟩
  · rw [run_succ, phase_step (h.rstN x), if_neg (by simp [hq]), advance_settled hset]
    split_ifs <;> simp [hp]
  · rw [changes_eq_true]
    exact hchange

/-- The count of a divider that was restarted in cycle `b`. -/
theorem count_on_grid (h : Driven inp D) (hs : s.Settled D) (hD : 0 < D.toNat)
    (hb : (run freqStep s inp b).phase = ⟨0, true, false⟩)
    (hq : ∀ y, b ≤ y → y < x → (inp y).syncTrig = false) (hx : b ≤ x) :
    (run freqStep s inp x).phase.synchPending = false ∧
      (run freqStep s inp x).phase.count =
        (strobes (fun y => (inp y).counted) b x).card % D.toNat := by
  induction x, hx using Nat.le_induction with
  | base => simp [hb, card_strobes_self]
  | succ x hx ih =>
    obtain ⟨hp, hcount⟩ := ih fun y hy hyx => hq y hy (by omega)
    obtain ⟨hp', hcount', -⟩ := quiet_edge h hs (hq x hx (by omega)) hp
    refine ⟨hp', ?_⟩
    have hlt := Nat.mod_lt (strobes (fun y => (inp y).counted) b x).card hD
    rw [hcount', card_strobes_succ hx, hcount]
    cases hc : (inp x).counted with
    | false => simp
    | true =>
      have hnext : ∀ n, (n + 1) % D.toNat = (n % D.toNat + 1) % D.toNat := by
        intro n
        rw [Nat.mod_add_mod]
      rw [if_neg Bool.noConfusion, if_pos rfl, hnext]
      by_cases hlast : (strobes (fun y => (inp y).counted) b x).card % D.toNat = D.toNat - 1
      · rw [if_pos hlast, hlast, Nat.sub_add_cancel hD, Nat.mod_self]
      · have hroom : (strobes (fun y => (inp y).counted) b x).card % D.toNat + 1 < D.toNat := by
          omega
        rw [if_neg hlast, Nat.mod_eq_of_lt hroom]

/-- **The changes of a divider that was restarted** are at every `N`-th counted edge from there, and
nowhere else. -/
theorem change_iff_grid (h : Driven inp D) (hs : s.Settled D) (hD : 0 < D.toNat)
    (hb : (run freqStep s inp b).phase = ⟨0, true, false⟩)
    (hq : ∀ y, b ≤ y → y ≤ x → (inp y).syncTrig = false) (hx : b ≤ x) :
    changes (clkSwapOf s inp) x = true ↔ (inp x).counted = true ∧
      D.toNat ∣ (strobes (fun y => (inp y).counted) b (x + 1)).card := by
  obtain ⟨hp, hcount⟩ := count_on_grid h hs hD hb (fun y hy hyx => hq y hy (by omega)) hx
  rw [(quiet_edge h hs (hq x hx le_rfl) hp).2.2, hcount, card_strobes_succ hx]
  apply and_congr_right
  intro hc
  rw [if_pos hc, dvd_add_one_iff hD]

/-- **A generator that follows a trigger**: settled and out of reset, it keeps the trigger of edge
`t`, serves it at edge `e`, the first that it counts, and gets no other one up to edge `n`. -/
structure Synced (s : Freq) (inp : ℕ → FreqIn w) (D : BitVec w) (t e n : ℕ) : Prop where
  driven : Driven inp D
  settled : s.Settled D
  pos : 0 < D.toNat
  trig : (inp t).syncTrig = true
  kept : ¬ (run freqStep s inp t).Drops
  last : ∀ x, t < x → x ≤ n → (inp x).syncTrig = false
  lt : t < e
  counted : (inp e).counted = true
  first : ∀ x, t < x → x < e → (inp x).counted = false

/-- From the service on, the clock of the divider changes on the grid of the counted edges. -/
theorem Synced.change_iff (h : Synced s inp D t e n) (hx : e < x) (hxn : x ≤ n) :
    changes (clkSwapOf s inp) x = true ↔ (inp x).counted = true ∧
      D.toNat ∣ (strobes (fun y => (inp y).counted) (e + 1) (x + 1)).card := by
  have hb := restarted h.driven h.settled h.trig h.kept h.lt h.counted h.first
    (h.last e h.lt (by omega))
  have hq : ∀ y, e + 1 ≤ y → y ≤ x → (inp y).syncTrig = false :=
    fun y hy hyx => h.last y (h.lt.trans hy) (hyx.trans hxn)
  exact change_iff_grid h.driven h.settled h.pos hb hq hx

/-- A divider that counts every edge. -/
theorem Synced.change_iff_every (h : Synced s inp D t e n) (hc : ∀ y, (inp y).counted = true)
    (hx : e < x) (hxn : x ≤ n) : changes (clkSwapOf s inp) x = true ↔ D.toNat ∣ x - e := by
  have hcard : (strobes (fun y => (inp y).counted) (e + 1) (x + 1)).card = x - e := by
    simp [strobes, hc]
  rw [h.change_iff hx hxn, hcard, and_iff_right (hc x)]

end Grid

/-! ## The generators -/

/-- A ratio of data rates, and a width that holds it: `f_log2_size` of the ratio and one. -/
structure Ratio where
  ratio : ℕ
  width : ℕ
  pos : 0 < ratio
  lt_two_pow : ratio < 2 ^ width

/-- `swap_div_f_i` of a tag generator. -/
def Ratio.setting (q : Ratio) : BitVec q.width := BitVec.ofNat q.width q.ratio

theorem Ratio.setting_toNat (q : Ratio) : q.setting.toNat = q.ratio :=
  Nat.mod_eq_of_lt q.lt_two_pow

/-- What the tag generators sample at an edge of `fs_clk_i`. -/
structure CoreIn where
  rstN : Bool
  syncTrig : Bool
  fofbAmpCe : Bool
  fofbAmpValid : Bool
  monit1AmpCe : Bool
  monit1AmpValid : Bool
  tbtDly : BitVec 9
  monit1Dly : BitVec 9
  monitDly : BitVec 9

/-- The ports of a tag generator. -/
def tagIn (q : Ratio) (i : CoreIn) (en cntEn : Bool) (dly : BitVec 9) : GenIn q.width 9 where
  rstN := i.rstN
  en := en
  syncTrig := i.syncTrig
  swapDivF := q.setting
  cntEn := cntEn
  swapMode := .swapDeswap
  deswapDelay := dly

/-- `cmp_tbt_tag`; both enables are left at their default. -/
def tbtTagIn (q : Ratio) (i : CoreIn) : GenIn q.width 9 := tagIn q i true true i.tbtDly

/-- `cmp_monit1_tag` -/
def monit1TagIn (q : Ratio) (i : CoreIn) : GenIn q.width 9 :=
  tagIn q i i.fofbAmpCe i.fofbAmpValid i.monit1Dly

/-- `cmp_monit_tag` -/
def monitTagIn (q : Ratio) (i : CoreIn) : GenIn q.width 9 :=
  tagIn q i i.monit1AmpCe i.monit1AmpValid i.monitDly

/-- The three tags. -/
inductive Tag
  | tbt
  | monit1
  | monit
  deriving DecidableEq, Repr

/-- The ports of the generator of a tag. -/
def Tag.genIn : Tag → (q : Ratio) → CoreIn → GenIn q.width 9
  | .tbt => tbtTagIn
  | .monit1 => monit1TagIn
  | .monit => monitTagIn

/-- The edges that the generator of a tag counts. -/
def Tag.counts : Tag → CoreIn → Bool
  | .tbt, _ => true
  | .monit1, i => i.fofbAmpCe && i.fofbAmpValid
  | .monit, i => i.monit1AmpCe && i.monit1AmpValid

theorem Tag.genIn_counted (r : Tag) (q : Ratio) (i : CoreIn) :
    (r.genIn q i).counted = r.counts i := by
  cases r <;> rfl

theorem Tag.genIn_swapMode (r : Tag) (q : Ratio) (i : CoreIn) :
    (r.genIn q i).swapMode = .swapDeswap := by
  cases r <;> rfl

variable {w d : ℕ} {R : ShiftReg d}

/-- `deswap_o` of a generator in a run. -/
def deswapOf (g : SwapGen R) (inp : ℕ → GenIn w d) (t : ℕ) : Bool :=
  R.q (run genStep g inp t).shift (inp t).deswapDelay

section Output

variable {g : SwapGen R} {inp : ℕ → GenIn w d} {a : BitVec d}

/-- The divider of a generator in its run. -/
theorem gen_freq (t : ℕ) :
    (run genStep g inp t).freq = run freqStep g.freq (fun t => (inp t).toFreqIn) t :=
  run_proj (fun s : SwapGen R => s.freq) (fun _ i => i.toFreqIn) (fun _ _ => rfl) g inp t

/-- **The deswap command is the clock of the divider**, later by the delay and two edges. -/
theorem deswapOf_eq (hr : ∀ t, (inp t).rstN = true) (hm : ∀ t, (inp t).swapMode = .swapDeswap)
    (ha : ∀ t, (inp t).deswapDelay = a) (t : ℕ) :
    deswapOf g inp (t + (a.toNat + 2)) = clkSwapOf g.freq (fun t => (inp t).toFreqIn) t := by
  have hshift : ∀ t, (run genStep g inp t).shift =
      run R.step g.shift (fun t => (run genStep g inp t).deswap) t :=
    run_proj (fun s : SwapGen R => s.shift) (fun s _ => s.deswap) (fun _ _ => rfl) g inp
  have hdeswap : (run genStep g inp (t + 1)).deswap = (run genStep g inp t).freq.phase.clkSwap := by
    rw [run_succ, genStep, hr, hm]
    rfl
  have hlate : t + (a.toNat + 2) = t + 1 + (a.toNat + 1) := by omega
  rw [deswapOf, ha, hshift, hlate, R.q_run, hdeswap, gen_freq]
  rfl

/-- So it changes with the clock. -/
theorem changes_deswapOf (hr : ∀ t, (inp t).rstN = true)
    (hm : ∀ t, (inp t).swapMode = .swapDeswap) (ha : ∀ t, (inp t).deswapDelay = a) (x : ℕ) :
    changes (deswapOf g inp) (x + (a.toNat + 2)) =
      changes (clkSwapOf g.freq fun t => (inp t).toFreqIn) x := by
  have hnext : x + (a.toNat + 2) + 1 = x + 1 + (a.toNat + 2) := by omega
  rw [changes, changes, hnext, deswapOf_eq hr hm ha, deswapOf_eq hr hm ha]

end Output

/-! ## The tags after a trigger -/

/-- **A tag after a trigger**: from the edge that serves the trigger to the next trigger, the tag
changes at every counted edge whose number from there is a multiple of the ratio, and nowhere else;
the delay that is set and two edges later. -/
theorem tag_on_grid (r : Tag) (q : Ratio) {i : ℕ → CoreIn} {T : ShiftReg 9} {g : SwapGen T}
    {a : BitVec 9} {t e n : ℕ}
    (h : Synced g.freq (fun t => (r.genIn q (i t)).toFreqIn) q.setting t e n)
    (ha : ∀ t, (r.genIn q (i t)).deswapDelay = a) {x : ℕ} (hx : e < x) (hxn : x ≤ n) :
    changes (deswapOf g fun t => r.genIn q (i t)) (x + (a.toNat + 2)) = true ↔
      r.counts (i x) = true ∧
        q.ratio ∣ (strobes (fun y => r.counts (i y)) (e + 1) (x + 1)).card := by
  have hr : ∀ t, (r.genIn q (i t)).rstN = true := h.driven.rstN
  rw [changes_deswapOf hr (fun t => r.genIn_swapMode q (i t)) ha, h.change_iff hx hxn,
    q.setting_toNat]
  simp only [r.genIn_counted]

/-- A division by two. -/
def byTwo : Ratio := ⟨2, 2, by decide, by decide⟩

/-- A trigger at the first edge, and a valid of the rate before at every second one. -/
def oneTrigger (t : ℕ) : CoreIn where
  rstN := true
  syncTrig := decide (t = 0)
  fofbAmpCe := true
  fofbAmpValid := decide (t % 2 = 1)
  monit1AmpCe := true
  monit1AmpValid := false
  tbtDly := 3
  monit1Dly := 3
  monitDly := 3

/-- A generator that divides by `n + 1`, two edges out of reset. -/
def settledGen (n : ℕ) {d : ℕ} : SwapGen (ShiftReg.unbounded d) :=
  ⟨⟨⟨0, true, false⟩, n, n⟩, false, false, fun _ => false⟩

theorem oneTrigger_synced {r : Tag} (hr : r.counts (oneTrigger 1) = true) :
    Synced (settledGen 1 (d := 9)).freq (fun t => (r.genIn byTwo (oneTrigger t)).toFreqIn)
      byTwo.setting 0 1 100 where
  driven := by cases r <;> exact ⟨fun _ => rfl, fun _ => rfl⟩
  settled := ⟨rfl, rfl⟩
  pos := by decide
  trig := by cases r <;> rfl
  kept := by cases r <;> decide
  last x hx _ := by cases r <;> exact decide_eq_false (by omega)
  lt := by decide
  counted := (r.genIn_counted byTwo _).trans hr
  first x hx hx' := by omega

/-- The second valid after the one that serves the trigger changes the tag, five edges later. -/
theorem oneTrigger_monit1 :
    changes (deswapOf (settledGen 1) fun t => monit1TagIn byTwo (oneTrigger t)) 10 = true :=
  (tag_on_grid .monit1 byTwo (x := 5) (oneTrigger_synced rfl) (fun _ => rfl) (by decide)
    (by decide)).mpr (by decide)

/-- The deswap command of the switching core is that of its generator. -/
theorem deswapO_eq {c : ℕ} (s : State R c) (inp : ℕ → Input w d c) (t : ℕ) :
    (run step s inp t).deswapO (inp t) = deswapOf s.gen (fun t => (inp t).gen) t := by
  have hgen : (run step s inp t).gen = run genStep s.gen (fun t => (inp t).gen) t :=
    run_proj (fun s : State R c => s.gen) (fun _ i => i.gen) (fun _ _ => rfl) s inp t
  rw [State.deswapO, hgen]
  rfl

/-- A switching core that takes the channels back, with a fixed delay, and counts every edge. -/
structure Deswapping {c : ℕ} (inp : ℕ → Input w d c) (a : BitVec d) : Prop where
  mode : ∀ t, (inp t).swapMode = .swapDeswap
  delay : ∀ t, (inp t).deswapDelay = a
  cntEn : ∀ t, (inp t).cntEn = true

/-- **The switching and the turn-by-turn tag**. Both generators count every edge and keep the same
trigger. Up to the next trigger, which leaves time for one half period at least, the tag marks every
change of the deswap command, each with its own delay, exactly where the ratio of the rate divides
the half period of the switching. -/
theorem tags_aligned (q : Ratio) {c : ℕ} {D : BitVec w} {a : BitVec d} {b : BitVec 9}
    {s : State R c} {inp : ℕ → Input w d c} {T : ShiftReg 9} {g : SwapGen T} {i : ℕ → CoreIn}
    {t n : ℕ} (hsw : Synced s.gen.freq (fun t => (inp t).gen.toFreqIn) D t (t + 1) n)
    (hn : t + 1 + D.toNat ≤ n) (hd : Deswapping inp a)
    (htag : Synced g.freq (fun t => (tbtTagIn q (i t)).toFreqIn) q.setting t (t + 1) n)
    (hb : ∀ t, (i t).tbtDly = b) :
    (∀ x, t + 1 < x → x ≤ n →
      changes (fun t => (run step s inp t).deswapO (inp t)) (x + (a.toNat + 2)) = true →
      changes (deswapOf g fun t => tbtTagIn q (i t)) (x + (b.toNat + 2)) = true) ↔
    q.ratio ∣ D.toNat := by
  have hsw_iff : ∀ x, t + 1 < x → x ≤ n →
      (changes (fun t => (run step s inp t).deswapO (inp t)) (x + (a.toNat + 2)) = true ↔
        D.toNat ∣ x - (t + 1)) := by
    intro x hx hxn
    have hc : ∀ y, (inp y).gen.counted = true := hd.cntEn
    simp only [deswapO_eq]
    rw [changes_deswapOf hsw.driven.rstN hd.mode hd.delay, hsw.change_iff_every hc hx hxn]
  have htag_iff : ∀ x, t + 1 < x → x ≤ n →
      (changes (deswapOf g fun t => tbtTagIn q (i t)) (x + (b.toNat + 2)) = true ↔
        q.ratio ∣ x - (t + 1)) := by
    intro x hx hxn
    rw [changes_deswapOf htag.driven.rstN (fun _ => rfl) hb,
      htag.change_iff_every (fun _ => rfl) hx hxn, q.setting_toNat]
  constructor
  · intro h
    have hx : t + 1 < t + 1 + D.toNat := Nat.lt_add_of_pos_right hsw.pos
    have hfirst := h _ hx hn ((hsw_iff _ hx hn).mpr (by rw [Nat.add_sub_cancel_left]))
    rw [htag_iff _ hx hn, Nat.add_sub_cancel_left] at hfirst
    exact hfirst
  · intro hdvd x hx hxn hchange
    apply (htag_iff x hx hxn).mpr
    exact hdvd.trans ((hsw_iff x hx hxn).mp hchange)

/-- A switching core with a half period of four, and the same trigger. -/
def byFour (t : ℕ) : Input 16 8 16 :=
  ⟨true, decide (t = 0), .swapDeswap, 4, true, 1, ⟨0, 0, 0, 0⟩, true⟩

def settledSwap : State (ShiftReg.unbounded 8) 16 :=
  ⟨settledGen 3, ⟨0, 0, false, false⟩, ⟨0, 0, false, false⟩⟩

theorem byFour_synced :
    Synced settledSwap.gen.freq (fun t => (byFour t).gen.toFreqIn) 4 0 1 100 where
  driven := ⟨fun _ => rfl, fun _ => rfl⟩
  settled := ⟨rfl, rfl⟩
  pos := by decide
  trig := rfl
  kept := by decide
  last x hx _ := decide_eq_false (by omega)
  lt := by decide
  counted := rfl
  first x hx hx' := by omega

/-- The first change of the deswap command after the trigger, and the tag that marks it. -/
theorem byFour_aligned :
    changes (deswapOf (settledGen 1) fun t => tbtTagIn byTwo (oneTrigger t)) 10 = true := by
  have hall := (tags_aligned byTwo byFour_synced (by decide)
    ⟨fun _ => rfl, fun _ => rfl, fun _ => rfl⟩ (oneTrigger_synced (r := .tbt) rfl)
    fun _ => rfl).mpr (by decide)
  exact hall 5 (by decide) (by decide) (by decide)

end PositionCalc
