import BpmGateware.Clocked.RegBank
import BpmGateware.OrbitIntlk.Basic

/-!
# The register bank of the interlock

`wb_orbit_intlk_regs`, the wbgen2 bank through which software holds the settings of the interlock
and reads its status. Its bus side is clocked by `clk_sys_i`; the limits are used, and the values
of the detectors provided, by `fs_clk_i`. Both clocks run on one stream of ticks, with their edges
in any order. The bits that the source assigns `'X'`, and the reserved inputs that nothing drives,
are inputs of a tick.

## Main definitions

* `Limit`, `Diff`, `Reg`, `decode`, `ackBit`: the registers, their addresses and their
  acknowledge bits
* `Regs`, `Regs.tick`: the bank
* `ctrlWord`, `stsWord`: the words that software reads from the first two registers
* `Mem`, `Mem.exec`: what software has written, as a memory

## Main results

* `regs_slave`: the bank is a slave with one access at a time
* `mem_eq`: its registers are the memory that the accesses taken up leave
-/

namespace OrbitIntlk

open Clocked

/-! ## The address map -/

/-- The registers that software writes for `fs_clk_i`. -/
inductive Limit
  | minSum
  | transMaxX
  | transMaxY
  | angMaxX
  | angMaxY
  | transMinX
  | transMinY
  | angMinX
  | angMinY
  deriving DecidableEq, Repr

/-- The registers that software reads from `fs_clk_i`. -/
inductive Diff
  | transX
  | transY
  | angX
  | angY
  deriving DecidableEq, Repr

/-- What an address selects. -/
inductive Reg
  | ctrl
  | sts
  | limit (l : Limit)
  | diff (d : Diff)
  | others
  deriving DecidableEq, Repr

/-- The `case` over `rwaddr_reg`. -/
def decode (adr : BitVec 4) : Reg :=
  match adr.toNat with
  | 0 => .ctrl
  | 1 => .sts
  | 2 => .limit .minSum
  | 3 => .limit .transMaxX
  | 4 => .limit .transMaxY
  | 5 => .limit .angMaxX
  | 6 => .limit .angMaxY
  | 7 => .limit .transMinX
  | 8 => .limit .transMinY
  | 9 => .limit .angMinX
  | 10 => .limit .angMinY
  | 11 => .diff .transX
  | 12 => .diff .transY
  | 13 => .diff .angX
  | 14 => .diff .angY
  | _ => .others

/-- The bit of `ack_sreg` that an access sets. -/
def ackBit : Reg → ℕ
  | .ctrl => 2
  | .sts => 0
  | .limit _ => 3
  | .diff _ => 5
  | .others => 0

abbrev Access := Request 4

/-- The acknowledge bit of a request. -/
def latency (r : Access) : ℕ := ackBit (decode r.adr)

/-- A write to the register. -/
def writes (g : Reg) (r : Access) : Bool := r.we && decide (decode r.adr = g)

/-- A read of a register of the other clock. -/
def reads (d : Diff) (r : Access) : Bool := !r.we && decide (decode r.adr = .diff d)

/-! ## The bank -/

/-- The inputs of the bank at a tick: the edges of its two clocks, the bus, and `regs_i`. -/
structure RegsIn where
  sys : Bool
  fs : Bool
  rstN : Bool
  bus : Bus 4
  ctrlReserved : BitVec 24
  /-- bit 31 of the control word, `'X'` in the source -/
  undefined : Bool
  sts : Flags
  stsReserved : Bool
  diff : Diff → BitVec 32

/-- The registers of `wb_orbit_intlk_regs`. -/
structure Regs where
  ack : AckGen 10
  rddata : BitVec 32
  ctrlEn : Bool
  ctrlClr : Monostable
  ctrlMinSumEn : Bool
  ctrlTransEn : Bool
  ctrlTransClr : Monostable
  ctrlAngEn : Bool
  ctrlAngClr : Monostable
  limit : Limit → AsyncRw (BitVec 32)
  diff : Diff → AsyncRo (BitVec 32)

/-- The bank while `rst_n_i` is low. -/
def Regs.reset : Regs where
  ack := .idle
  rddata := 0
  ctrlEn := false
  ctrlClr := .reset
  ctrlMinSumEn := false
  ctrlTransEn := false
  ctrlTransClr := .reset
  ctrlAngEn := false
  ctrlAngClr := .reset
  limit _ := .reset 0
  diff _ := .reset 0

/-- The control word as it is read: the clear bits read as zero. -/
def ctrlWord (en minSumEn transEn angEn : Bool) (reserved : BitVec 24) (undefined : Bool) :
    BitVec 32 :=
  BitVec.ofBool undefined ++ reserved ++
    (BitVec.ofBoolListLE [en, false, minSumEn, transEn, false, angEn, false] : BitVec 7)

/-- The status word, bit `0` first; the `_any` bits repeat the merged ones. -/
def stsWord (f : Flags) (reserved : Bool) : BitVec 32 :=
  BitVec.ofBoolListLE
    [f.trans.biggerAxis .x, f.trans.biggerAxis .y, f.trans.biggerLtcAxis .x,
      f.trans.biggerLtcAxis .y, f.trans.bigger, f.trans.bigger, f.trans.biggerLtc,
      f.ang.biggerAxis .x, f.ang.biggerAxis .y, f.ang.biggerLtcAxis .x,
      f.ang.biggerLtcAxis .y, f.ang.bigger, f.ang.bigger, f.ang.biggerLtc,
      f.intlk, f.intlkLtc,
      f.trans.smallerAxis .x, f.trans.smallerAxis .y, f.trans.smallerLtcAxis .x,
      f.trans.smallerLtcAxis .y, f.trans.smaller, f.trans.smaller, f.trans.smallerLtc,
      f.ang.smallerAxis .x, f.ang.smallerAxis .y, f.ang.smallerLtcAxis .x,
      f.ang.smallerLtcAxis .y, f.ang.smaller, f.ang.smaller, f.ang.smallerLtc,
      f.sumBiggerAny, reserved]

/-- What an access puts into `rddata_reg` when it is taken up. -/
def Regs.readStart (s : Regs) (i : RegsIn) (r : Access) : BitVec 32 :=
  match decode r.adr with
  | .ctrl =>
    ctrlWord s.ctrlEn s.ctrlMinSumEn s.ctrlTransEn s.ctrlAngEn i.ctrlReserved i.undefined
  | .sts => stsWord i.sts i.stsReserved
  | .limit l => (s.limit l).int
  | .diff _ => s.rddata
  | .others => s.rddata

/-- What a register of the other clock hands on at the edge before the acknowledge. -/
def Regs.handOver (s : Regs) (w : BitVec 32) (d : Diff) : BitVec 32 :=
  if s.ack.sreg.getLsbD 1 && (s.diff d).lwbInProgress then (s.diff d).int else w

/-- `rddata_reg` at a tick. -/
def Regs.rddataNext (s : Regs) (i : RegsIn) : Option (Move Access) → BitVec 32
  | some (.start r) => s.readStart i r
  -- four statements in a row, of which the last one that applies wins
  | some .advance => [.transX, .transY, .angX, .angY].foldl s.handOver s.rddata
  | _ => s.rddata

/-- A bit of the control register that keeps its value. -/
def ctrlBit (k : ℕ) (b : Bool) (m : Option (Move Access)) : Bool :=
  (startOf m).elim b (rwExec (writes .ctrl) (fun r => r.dat.getLsbD k) b)

/-- What the slave does at a tick. -/
def Regs.move (s : Regs) (i : RegsIn) : Option (Move Access) := slaveMove i.sys i.bus.req s.ack

/-- The clocked branches of the processes. -/
def Regs.clocked (s : Regs) (i : RegsIn) : Regs where
  ack := if i.sys then s.ack.next latency i.bus.req else s.ack
  rddata := s.rddataNext i (s.move i)
  ctrlEn := ctrlBit 0 s.ctrlEn (s.move i)
  ctrlClr := s.ctrlClr.tick (writes .ctrl) (fun r => r.dat.getLsbD 1) (s.move i)
  ctrlMinSumEn := ctrlBit 2 s.ctrlMinSumEn (s.move i)
  ctrlTransEn := ctrlBit 3 s.ctrlTransEn (s.move i)
  ctrlTransClr := s.ctrlTransClr.tick (writes .ctrl) (fun r => r.dat.getLsbD 4) (s.move i)
  ctrlAngEn := ctrlBit 5 s.ctrlAngEn (s.move i)
  ctrlAngClr := s.ctrlAngClr.tick (writes .ctrl) (fun r => r.dat.getLsbD 6) (s.move i)
  limit l := (s.limit l).tick (writes (.limit l)) (fun r => r.dat) (s.move i) i.fs
  diff d :=
    (s.diff d).tick (reads d) (s.move i) (s.ack.sreg.getLsbD 1) i.fs (i.diff d)

/-- **One tick of `wb_orbit_intlk_regs`**: the reset of both clocks is asynchronous. -/
def Regs.tick (s : Regs) (i : RegsIn) : Regs := if i.rstN = false then .reset else s.clocked i

/-! ## What software has written -/

/-- The settings of the bank, as a memory. -/
structure Mem where
  ctrlEn : Bool
  ctrlMinSumEn : Bool
  ctrlTransEn : Bool
  ctrlAngEn : Bool
  limit : Limit → BitVec 32

def Mem.reset : Mem := ⟨false, false, false, false, fun _ => 0⟩

/-- One access: a write to the control word or to a limit changes that and nothing else. -/
def Mem.exec (m : Mem) (r : Access) : Mem :=
  if r.we then
    match decode r.adr with
    | .ctrl =>
      { m with
        ctrlEn := r.dat.getLsbD 0
        ctrlMinSumEn := r.dat.getLsbD 2
        ctrlTransEn := r.dat.getLsbD 3
        ctrlAngEn := r.dat.getLsbD 5 }
    | .limit l => { m with limit := Function.update m.limit l r.dat }
    | _ => m
  else m

/-- An access, register by register. -/
theorem Mem.exec_eq (m : Mem) (r : Access) :
    m.exec r =
      { ctrlEn := rwExec (writes .ctrl) (fun r => r.dat.getLsbD 0) m.ctrlEn r
        ctrlMinSumEn := rwExec (writes .ctrl) (fun r => r.dat.getLsbD 2) m.ctrlMinSumEn r
        ctrlTransEn := rwExec (writes .ctrl) (fun r => r.dat.getLsbD 3) m.ctrlTransEn r
        ctrlAngEn := rwExec (writes .ctrl) (fun r => r.dat.getLsbD 5) m.ctrlAngEn r
        limit := fun l => rwExec (writes (.limit l)) (fun r => r.dat) (m.limit l) r } := by
  unfold Mem.exec rwExec writes
  cases hw : r.we with
  | false => simp
  | true =>
    cases hd : decode r.adr with
    | limit l =>
      simp only [if_true, Bool.true_and, reduceCtorEq, decide_false, Bool.false_eq_true, if_false,
        Reg.limit.injEq, decide_eq_true_eq, Mem.mk.injEq, true_and]
      funext k
      by_cases hk : l = k
      · rw [if_pos hk, hk, Function.update_self]
      · rw [if_neg hk, Function.update_of_ne (Ne.symm hk)]
    | _ => simp

/-- The settings that the bank holds on the bus side. -/
def Regs.mem (s : Regs) : Mem where
  ctrlEn := s.ctrlEn
  ctrlMinSumEn := s.ctrlMinSumEn
  ctrlTransEn := s.ctrlTransEn
  ctrlAngEn := s.ctrlAngEn
  limit l := (s.limit l).int

/-- A tick does to the settings what the access it takes up does to the memory. -/
theorem Regs.mem_clocked (s : Regs) (i : RegsIn) :
    (s.clocked i).mem = (startOf (s.move i)).elim s.mem s.mem.exec := by
  simp only [Regs.mem, Regs.clocked, ctrlBit, AsyncRw.tick]
  cases startOf (s.move i) with
  | none => rfl
  | some r => exact (Mem.exec_eq s.mem r).symm

/-! ## Runs of the bank -/

section Runs

/-- The bank from reset on. -/
abbrev regsRun (inp : ℕ → RegsIn) (t : ℕ) : Regs := run Regs.tick .reset inp t

/-- The accesses taken up, by tick. -/
abbrev accessTaken (inp : ℕ → RegsIn) : ℕ → Option Access :=
  started (fun t => (inp t).sys) (fun t => (inp t).bus.req) fun t => (regsRun inp t).ack

/-- The accesses that the master sees accepted, by tick: shown, and not stalled. -/
abbrev accessDone (inp : ℕ → RegsIn) : ℕ → Option Access :=
  accepted (fun t => (inp t).sys) (fun t => (inp t).bus.req) fun t => (regsRun inp t).ack

variable {inp : ℕ → RegsIn} (hrst : ∀ t, (inp t).rstN = true)

include hrst

theorem regsRun_succ (t : ℕ) : regsRun inp (t + 1) = (regsRun inp t).clocked (inp t) := by
  rw [regsRun, run_succ, Regs.tick, if_neg (by simp [hrst t])]

/-- **The bank is a slave that serves one access at a time**. -/
theorem regs_slave : Slave latency (fun t => (inp t).sys) (fun t => (inp t).bus.req)
    fun t => (regsRun inp t).ack where
  zero := rfl
  succ t := by
    rw [regsRun_succ hrst]
    rfl
  lat_lt r := by
    unfold latency
    cases decode r.adr <;> simp [ackBit]

theorem startOf_move (t : ℕ) : startOf ((regsRun inp t).move (inp t)) = accessTaken inp t :=
  (regs_slave hrst).startOf_slaveMove t

theorem mem_succ (t : ℕ) :
    (regsRun inp (t + 1)).mem =
      (accessTaken inp t).elim (regsRun inp t).mem (regsRun inp t).mem.exec := by
  rw [regsRun_succ hrst, Regs.mem_clocked, startOf_move hrst]

/-- **The bank holds the memory that the accesses taken up leave**. -/
theorem mem_eq (t : ℕ) :
    (regsRun inp t).mem = (history (accessTaken inp) t).foldl Mem.exec .reset :=
  eq_foldl_history (m := fun t => (regsRun inp t).mem) (mem_succ hrst) t

end Runs

end OrbitIntlk
