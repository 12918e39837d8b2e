import BpmGateware.Clocked.RegBank
import BpmGateware.BpmSwap.Basic

/-!
# The register bank of the switching

`wb_bpm_swap_regs`, the wbgen2 bank of `bpm_swap`: a control word with the switching mode, the
divider setting and the enable of the counter, and a word with the delay of the deswap command. The
mode, the setting and the delay cross from `clk_sys_i` to `fs_clk_i`, each with a strobe of its own;
the enable is used as it is. The mode and the setting are written by one access, and their two
crossings run in step: they are one crossing of the pair.

## Main definitions

* `Reg`, `decode`: the two words
* `Regs`, `Regs.tick`: the bank
* `Regs.modeAndDiv`: the crossing of the pair

## Main results

* `regs_slave`: the bank is a slave with one access at a time
* `never_mixed`: the mode and the setting in force come from one write, whatever the clocks
* `read_in_force`: what software reads back is in force
-/

namespace BpmSwap

open Clocked

/-! ## The bank -/

/-- What an address selects. -/
inductive Reg
  | ctrl
  | dly
  deriving DecidableEq, Repr

/-- The `case` over `rwaddr_reg(0)`. -/
def decode (adr : BitVec 1) : Reg := if adr.getLsbD 0 then .dly else .ctrl

abbrev Access := Request 1

/-- The bit of `ack_sreg` that an access sets. -/
def latency (r : Access) : ℕ :=
  match decode r.adr with
  | .ctrl => 3
  | .dly => 3

/-- A write to the word. -/
def writes (g : Reg) (r : Access) : Bool := r.we && decide (decode r.adr = g)

/-- Bits 2 to 1 of the control word. -/
def modeField (x : BitVec 32) : BitVec 2 := x.extractLsb' 1 2

/-- Bits 23 to 8 of the control word. -/
def divField (x : BitVec 32) : BitVec 16 := x.extractLsb' 8 16

/-- Bits 15 to 0 of the delay word. -/
def deswapField (x : BitVec 32) : BitVec 16 := x.extractLsb' 0 16

/-- The inputs of the bank at a tick: the edges of its two clocks, the bus, and `regs_i`. -/
structure RegsIn where
  sys : Bool
  fs : Bool
  rstN : Bool
  bus : Bus 1
  ctrlReserved : BitVec 2
  dlyReserved : BitVec 16
  /-- bits 7 and 6 of the control word, `'X'` in the source -/
  undefinedLow : BitVec 2
  /-- bits 31 to 24 of it -/
  undefinedHigh : BitVec 8

/-- The registers of `wb_bpm_swap_regs`. -/
structure Regs where
  ack : AckGen 10
  rddata : BitVec 32
  ctrlRst : Bool
  ctrlMode : AsyncRw (BitVec 2)
  ctrlSwapDivFCntEn : Bool
  ctrlSwapDivF : AsyncRw (BitVec 16)
  dlyDeswap : AsyncRw (BitVec 16)

/-- The bank while `rst_n_i` is low. -/
def Regs.reset : Regs where
  ack := .idle
  rddata := 0
  ctrlRst := false
  ctrlMode := .reset 0
  ctrlSwapDivFCntEn := false
  ctrlSwapDivF := .reset 0
  dlyDeswap := .reset 0

/-- The control word as it is read. -/
def Regs.ctrlWord (s : Regs) (i : RegsIn) : BitVec 32 :=
  i.undefinedHigh ++ s.ctrlSwapDivF.int ++ i.undefinedLow ++ BitVec.ofBool s.ctrlSwapDivFCntEn ++
    i.ctrlReserved ++ s.ctrlMode.int ++ BitVec.ofBool s.ctrlRst

/-- What an access puts into `rddata_reg` when it is taken up. -/
def Regs.readStart (s : Regs) (i : RegsIn) (r : Access) : BitVec 32 :=
  match decode r.adr with
  | .ctrl => s.ctrlWord i
  | .dly => i.dlyReserved ++ s.dlyDeswap.int

/-- A bit of the control word that keeps its value. -/
def ctrlBit (k : ℕ) (b : Bool) (m : Option (Move Access)) : Bool :=
  (startOf m).elim b (rwExec (writes .ctrl) (fun r => r.dat.getLsbD k) b)

/-- What the slave does at a tick. -/
def Regs.move (s : Regs) (i : RegsIn) : Option (Move Access) := slaveMove i.sys i.bus.req s.ack

/-- The clocked branches of the processes. -/
def Regs.clocked (s : Regs) (i : RegsIn) : Regs where
  ack := if i.sys then s.ack.next latency i.bus.req else s.ack
  rddata := (startOf (s.move i)).elim s.rddata (s.readStart i)
  ctrlRst := ctrlBit 0 s.ctrlRst (s.move i)
  ctrlMode := s.ctrlMode.tick (writes .ctrl) (fun r => modeField r.dat) (s.move i) i.fs
  ctrlSwapDivFCntEn := ctrlBit 5 s.ctrlSwapDivFCntEn (s.move i)
  ctrlSwapDivF := s.ctrlSwapDivF.tick (writes .ctrl) (fun r => divField r.dat) (s.move i) i.fs
  dlyDeswap := s.dlyDeswap.tick (writes .dly) (fun r => deswapField r.dat) (s.move i) i.fs

/-- **One tick of `wb_bpm_swap_regs`**: the reset of both clocks is asynchronous. -/
def Regs.tick (s : Regs) (i : RegsIn) : Regs := if i.rstN = false then .reset else s.clocked i

theorem latency_eq (r : Access) : latency r = 3 := by
  unfold latency
  cases decode r.adr <;> rfl

theorem modeField_ctrlWord (s : Regs) (i : RegsIn) : modeField (s.ctrlWord i) = s.ctrlMode.int := by
  rw [modeField, Regs.ctrlWord, BitVec.extractLsb'_append_eq_of_le (by omega),
    BitVec.extractLsb'_append_eq_right]

theorem divField_ctrlWord (s : Regs) (i : RegsIn) :
    divField (s.ctrlWord i) = s.ctrlSwapDivF.int := by
  rw [divField, Regs.ctrlWord]
  simp (disch := omega) only [BitVec.extractLsb'_append_eq_of_le]
  exact BitVec.extractLsb'_append_eq_right

theorem getLsbD_ctrlWord (s : Regs) (i : RegsIn) :
    (s.ctrlWord i).getLsbD 5 = s.ctrlSwapDivFCntEn := by
  simp only [Regs.ctrlWord, BitVec.getLsbD_append]
  simp

/-- The mode and the divider setting, as one register. -/
def Regs.modeAndDiv (s : Regs) : AsyncRw (BitVec 2 × BitVec 16) := s.ctrlMode.pair s.ctrlSwapDivF

/-- What a write to the control word gives to both. -/
def modeAndDivField (r : Access) : BitVec 2 × BitVec 16 := (modeField r.dat, divField r.dat)

/-! ## Runs of the bank -/

section Runs

/-- The bank from reset on. -/
abbrev regsRun (inp : ℕ → RegsIn) (t : ℕ) : Regs := run Regs.tick .reset inp t

/-- The accesses taken up, by tick. -/
abbrev accessTaken (inp : ℕ → RegsIn) : ℕ → Option Access :=
  started (fun t => (inp t).sys) (fun t => (inp t).bus.req) fun t => (regsRun inp t).ack

/-- The accesses that the master sees accepted, by tick. -/
abbrev accessDone (inp : ℕ → RegsIn) : ℕ → Option Access :=
  accepted (fun t => (inp t).sys) (fun t => (inp t).bus.req) fun t => (regsRun inp t).ack

/-- The master keeps a request up to the edge at which it is not stalled. -/
abbrev Keeps (inp : ℕ → RegsIn) : Prop :=
  Patient (fun t => (inp t).sys) (fun t => (inp t).bus.req) fun t => (regsRun inp t).ack

/-- `fs_clk_i` is not slower than `clk_sys_i`. -/
abbrev Paced (inp : ℕ → RegsIn) : Prop := Pace (fun t => (inp t).sys) fun t => (inp t).fs

variable {inp : ℕ → RegsIn} (hrst : ∀ t, (inp t).rstN = true)

include hrst

theorem regsRun_succ (t : ℕ) : regsRun inp (t + 1) = (regsRun inp t).clocked (inp t) := by
  rw [regsRun, run_succ, Regs.tick, if_neg (by simp [hrst t])]

/-- **The bank is a slave that serves one access at a time**. -/
theorem regs_slave : Slave latency (fun t => (inp t).sys) (fun t => (inp t).bus.req)
    fun t => (regsRun inp t).ack where
  zero := rfl
  succ t := by
    rw [regsRun_succ hrst]
    rfl
  lat_lt r := by
    rw [latency_eq]
    omega

theorem startOf_move (t : ℕ) : startOf ((regsRun inp t).move (inp t)) = accessTaken inp t :=
  (regs_slave hrst).startOf_slaveMove t

omit hrst in
theorem two_le_latency (g : Reg) (r : Access) (_ : writes g r = true) : 2 ≤ latency r := by
  rw [latency_eq]
  omega

/-- The crossings of the mode and of the setting run in step. -/
theorem mode_inStep_div (t : ℕ) :
    (regsRun inp t).ctrlMode.InStep (regsRun inp t).ctrlSwapDivF := by
  induction t with
  | zero => exact ⟨rfl, rfl⟩
  | succ t ih =>
    rw [regsRun_succ hrst]
    exact ih.tick _ _

theorem modeAndDiv_succ (t : ℕ) :
    (regsRun inp (t + 1)).modeAndDiv = (regsRun inp t).modeAndDiv.tick (writes .ctrl)
      modeAndDivField (slaveMove (inp t).sys (inp t).bus.req (regsRun inp t).ack) (inp t).fs := by
  rw [regsRun_succ hrst]
  exact (mode_inStep_div hrst t).pair_tick _ _

theorem dlyDeswap_succ (t : ℕ) :
    (regsRun inp (t + 1)).dlyDeswap = (regsRun inp t).dlyDeswap.tick (writes .dly)
      (fun r => deswapField r.dat)
      (slaveMove (inp t).sys (inp t).bus.req (regsRun inp t).ack) (inp t).fs := by
  rw [regsRun_succ hrst]
  rfl

theorem cntEn_succ (t : ℕ) :
    (regsRun inp (t + 1)).ctrlSwapDivFCntEn = (accessTaken inp t).elim
      (regsRun inp t).ctrlSwapDivFCntEn
      (rwExec (writes .ctrl) (fun r => r.dat.getLsbD 5) (regsRun inp t).ctrlSwapDivFCntEn) := by
  rw [regsRun_succ hrst, ← startOf_move hrst]
  rfl

/-- **The mode and the divider setting in force come from one write**, whatever the clocks: at every
tick they are the pair that the control writes up to an earlier tick left, and these ticks come in
order. -/
theorem never_mixed :
    ∃ y : ℕ → ℕ, Monotone y ∧ ∀ t, y t ≤ t ∧
      ((regsRun inp t).ctrlMode.out, (regsRun inp t).ctrlSwapDivF.out) =
        (history (accessTaken inp) (y t)).foldl (rwExec (writes .ctrl) modeAndDivField) (0, 0) := by
  obtain ⟨y, hmono, hy⟩ := AsyncRw.exists_monotone_int (x := fun t => (regsRun inp t).modeAndDiv)
    (z := (0, 0)) rfl (modeAndDiv_succ hrst)
  refine ⟨y, hmono, fun t => ⟨(hy t).1, ?_⟩⟩
  have hint := AsyncRw.int_eq (regs_slave hrst) (x := fun t => (regsRun inp t).modeAndDiv)
    (z := (0, 0)) rfl (modeAndDiv_succ hrst) (y t)
  exact (hy t).2.trans hint

/-- The bank behind a master that shows the requests of `f`, with both clocks at every tick. -/
def script (f : ℕ → Option Access) (t : ℕ) : RegsIn where
  sys := true
  fs := true
  rstN := true
  bus := .ofReq (f t)
  ctrlReserved := 0
  dlyReserved := 0
  undefinedLow := 0
  undefinedHigh := 0

/-- Software sets a division by two in the mode with deswap, and reads it back. -/
def byTwoScript (t : ℕ) : Option Access :=
  if t < 5 then some ⟨true, 0, 0x226⟩
  else if t < 10 then some ⟨false, 0, 0⟩
  else none

omit hrst in
theorem byTwoScript_ended {t : ℕ} (ht : 10 ≤ t) : byTwoScript t = none := by
  unfold byTwoScript
  rw [if_neg (by omega), if_neg (by omega)]

omit hrst in
/-- At tick `9` the pair in force is the one of the write of the script, which is taken up at tick
`0`. -/
theorem byTwoScript_pair : ((regsRun (script byTwoScript) 9).ctrlMode.out,
    (regsRun (script byTwoScript) 9).ctrlSwapDivF.out) =
      (history (accessTaken (script byTwoScript)) 1).foldl
        (rwExec (writes .ctrl) modeAndDivField) (0, 0) := by
  obtain ⟨y, -, hy⟩ := @never_mixed (script byTwoScript) fun _ => rfl
  obtain ⟨hle, hpair⟩ := hy 9
  have hlater : ∀ x ≤ 9, 1 ≤ x → (history (accessTaken (script byTwoScript)) x).foldl
      (rwExec (writes .ctrl) modeAndDivField) (0, 0) =
        (history (accessTaken (script byTwoScript)) 1).foldl
          (rwExec (writes .ctrl) modeAndDivField) (0, 0) := by decide +kernel
  rw [hpair]
  apply hlater (y 9) hle
  by_contra hzero
  rw [show y 9 = 0 by omega] at hpair
  exact absurd hpair (by decide +kernel)

variable {t u : ℕ} {r : Access}

theorem accessDone_iff (hk : Keeps inp) :
    accessDone inp t = some r ↔ (inp t).sys = true ∧ ∃ u, accessTaken inp u = some r ∧ u < t ∧
      (strobes (fun t => (inp t).sys) (u + 1) t).card = 3 := by
  rw [← latency_eq r]
  exact (regs_slave hrst).accepted_iff hk

/-- While an access is in progress, no other one is taken up. -/
theorem taken_eq_none {x : ℕ} (hu : accessTaken inp u = some r) (hux : u < x)
    (hc : (strobes (fun t => (inp t).sys) (u + 1) x).card ≤ 3) : accessTaken inp x = none := by
  apply (regs_slave hrst).started_eq_none hu hux
  rw [latency_eq]
  exact hc

/-- While an access is in progress, `rddata_reg` keeps what it got at the start. -/
theorem rddata_eq (hu : accessTaken inp u = some r) (hut : u < t)
    (hc : (strobes (fun t => (inp t).sys) (u + 1) t).card ≤ 3) :
    (regsRun inp t).rddata = (regsRun inp u).readStart (inp u) r := by
  have hsucc : ∀ t, (regsRun inp (t + 1)).rddata =
      (accessTaken inp t).elim (regsRun inp t).rddata ((regsRun inp t).readStart (inp t)) := by
    intro t
    rw [regsRun_succ hrst, ← startOf_move hrst]
    rfl
  rw [hold_between (g := fun t => (regsRun inp t).rddata) hut, hsucc u, hu]
  · rfl
  · intro x hux hxt
    rw [hsucc x, taken_eq_none hrst hu hux ((card_strobes_mono hxt.le).trans hc)]
    rfl

/-- From the start of a read to its answer nothing is written. -/
theorem no_write_of_read (hu : accessTaken inp u = some r) (hr : r.we = false)
    (hc : (strobes (fun t => (inp t).sys) (u + 1) t).card ≤ 3) (g : Reg) :
    ∀ y, u ≤ y → y < t → ∀ q, accessTaken inp y = some q → writes g q = false := by
  intro y huy hyt q hq
  rcases Nat.eq_or_lt_of_le huy with rfl | hlt
  · rw [hu, Option.some.injEq] at hq
    rw [writes, ← hq, hr, Bool.false_and]
  · rw [taken_eq_none hrst hu hlt ((card_strobes_mono hyt.le).trans hc)] at hq
    cases hq

/-- When an access is accepted, the writes before it have come over. -/
theorem quiet_of_done (hk : Keeps inp) (hdone : accessDone inp t = some r) {y : ℕ} {q : Access}
    (hyt : y < t) (hy : accessTaken inp y = some q) :
    3 ≤ (strobes (fun t => (inp t).sys) (y + 1) t).card := by
  rw [← latency_eq q]
  exact (regs_slave hrst).lat_le_of_accepted hk hdone hy hyt

/-- **What software reads back is in force**: the words of an accepted read are, field by field,
what `bpm_swap` has at its ports while the read is answered. -/
theorem read_in_force (hk : Keeps inp) (hp : Paced inp) (hdone : accessDone inp t = some r)
    (hr : r.we = false) :
    (decode r.adr = .ctrl → modeField (regsRun inp t).rddata = (regsRun inp t).ctrlMode.out ∧
      divField (regsRun inp t).rddata = (regsRun inp t).ctrlSwapDivF.out ∧
      (regsRun inp t).rddata.getLsbD 5 = (regsRun inp t).ctrlSwapDivFCntEn) ∧
    (decode r.adr = .dly →
      deswapField (regsRun inp t).rddata = (regsRun inp t).dlyDeswap.out) := by
  obtain ⟨-, u, hu, hut, hc⟩ := (accessDone_iff hrst hk).mp hdone
  have hno := no_write_of_read hrst hu hr hc.le
  rw [rddata_eq hrst hu hut hc.le, Regs.readStart]
  constructor
  · intro hd
    have hpair : ((regsRun inp t).modeAndDiv).out = ((regsRun inp u).modeAndDiv).int := by
      rw [AsyncRw.out_eq_int (regs_slave hrst) (x := fun t => (regsRun inp t).modeAndDiv)
        (z := (0, 0)) rfl (modeAndDiv_succ hrst) (two_le_latency .ctrl) hp
        fun y q hyt hy _ => quiet_of_done hrst hk hdone hyt hy]
      exact AsyncRw.int_hold (regs_slave hrst) (x := fun t => (regsRun inp t).modeAndDiv)
        (modeAndDiv_succ hrst) hut.le (hno .ctrl)
    have hen : (regsRun inp t).ctrlSwapDivFCntEn = (regsRun inp u).ctrlSwapDivFCntEn :=
      rwExec_hold (m := fun t => (regsRun inp t).ctrlSwapDivFCntEn) (cntEn_succ hrst) hut.le
        (hno .ctrl)
    rw [hd, modeField_ctrlWord, divField_ctrlWord, getLsbD_ctrlWord]
    exact ⟨congrArg Prod.fst hpair.symm, congrArg Prod.snd hpair.symm, hen.symm⟩
  · intro hd
    have hdly : (regsRun inp t).dlyDeswap.out = (regsRun inp u).dlyDeswap.int := by
      rw [AsyncRw.out_eq_int (regs_slave hrst) (x := fun t => (regsRun inp t).dlyDeswap)
        rfl (dlyDeswap_succ hrst) (two_le_latency .dly) hp
        fun y q hyt hy _ => quiet_of_done hrst hk hdone hyt hy]
      exact AsyncRw.int_hold (regs_slave hrst) (x := fun t => (regsRun inp t).dlyDeswap)
        (dlyDeswap_succ hrst) hut.le (hno .dly)
    rw [hd, hdly]
    exact BitVec.extractLsb'_append_eq_right

omit hrst in
theorem byTwoScript_keeps : Keeps (script byTwoScript) := by
  apply patient_of_finite (m := 10)
  · exact fun t ht => (Bus.req_ofReq (byTwoScript t)).trans (byTwoScript_ended ht)
  · decide +kernel

omit hrst in
/-- The setting that the script reads back at tick `9` is at the port. -/
theorem byTwoScript_read : (regsRun (script byTwoScript) 9).ctrlSwapDivF.out = 2 := by
  obtain ⟨-, hdiv, -⟩ := (@read_in_force (script byTwoScript) (fun _ => rfl) 9 ⟨false, 0, 0⟩
    byTwoScript_keeps (fun _ y h => ⟨y, h.2.2.1, le_rfl, rfl⟩) (by decide +kernel) rfl).1 rfl
  rw [← hdiv]
  decide +kernel

end Runs

end BpmSwap
