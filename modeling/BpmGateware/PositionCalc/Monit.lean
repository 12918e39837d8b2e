import BpmGateware.Clocked.FifoCrossing
import BpmGateware.Clocked.FifoPort
import BpmGateware.Clocked.RegBank
import BpmGateware.Clocked.SyncFifo

/-!
# The monitoring registers

How software reads the monitoring data of `wb_position_calc_core`. Amplitudes and positions come at
`fs_clk_i`, four words a record; each kind is packed into one word of a FIFO and read on `clk_i` as
soon as it shows there. From there software gets it in two ways. A write to the update register, of
any value, takes the records at the outputs of both FIFOs into the registers that the bus reads. And
every record goes into a second FIFO, `pos_calc_ampfifo_monit_INST` or one of its siblings, as long
as it is not full: an access to its first word takes the next record out, the other three words do
not. There are two rates, each with an update register and two FIFOs of its own.

Of `wb_pos_calc_regs`, the accesses to these registers are modelled, and the acknowledge bits of all
addresses; what the rest of the bank puts into `rddata_reg` is an input of a tick, and so are the
words of the test counters and the bits that the source assigns `'X'`.

## Main definitions

* `Word`, `Reg`, `decode`, `ackBit`: the registers and the acknowledge bits
* `Path`, `Path.tick`: one record on its way to the bus
* `Monit`, `Monit.tick`: the four paths and the bank

## Main results

* `updtWr_eq`: the update pulse lasts for one edge after its write
* `reads_of_one_record`: all words read between two updates are words of one record
-/

namespace PositionCalc

open Clocked

variable {w : ℕ}

/-! ## The address map -/

/-- The two monitoring rates. -/
inductive Rate
  | monit
  | monit1
  deriving DecidableEq, Repr

/-- The two records of a rate. -/
inductive Kind
  | amp
  | pos
  deriving DecidableEq, Repr

/-- The words of a record: channels 0 to 3 of the amplitudes, or `x`, `y`, `q` and `sum`. -/
inductive Word
  | w0
  | w1
  | w2
  | w3
  deriving DecidableEq, Repr

/-- The place of a word in the packed record. -/
def Word.index : Word → ℕ
  | .w0 => 0
  | .w1 => 1
  | .w2 => 2
  | .w3 => 3

/-- What an address selects. -/
inductive Reg
  | word (rt : Rate) (kd : Kind) (c : Word)
  | updt (rt : Rate)
  | fifo (rt : Rate) (kd : Kind) (c : Word)
  | csr (rt : Rate) (kd : Kind)
  | others
  deriving DecidableEq, Repr

/-- The `case` over `rwaddr_reg`. -/
def decode (adr : BitVec 7) : Reg :=
  match adr.toNat with
  | 20 => .word .monit .amp .w0
  | 21 => .word .monit .amp .w1
  | 22 => .word .monit .amp .w2
  | 23 => .word .monit .amp .w3
  | 24 => .word .monit .pos .w0
  | 25 => .word .monit .pos .w1
  | 26 => .word .monit .pos .w2
  | 27 => .word .monit .pos .w3
  | 28 => .updt .monit
  | 29 => .word .monit1 .amp .w0
  | 30 => .word .monit1 .amp .w1
  | 31 => .word .monit1 .amp .w2
  | 32 => .word .monit1 .amp .w3
  | 33 => .word .monit1 .pos .w0
  | 34 => .word .monit1 .pos .w1
  | 35 => .word .monit1 .pos .w2
  | 36 => .word .monit1 .pos .w3
  | 37 => .updt .monit1
  | 38 => .fifo .monit .amp .w0
  | 39 => .fifo .monit .amp .w1
  | 40 => .fifo .monit .amp .w2
  | 41 => .fifo .monit .amp .w3
  | 42 => .csr .monit .amp
  | 43 => .fifo .monit .pos .w0
  | 44 => .fifo .monit .pos .w1
  | 45 => .fifo .monit .pos .w2
  | 46 => .fifo .monit .pos .w3
  | 47 => .csr .monit .pos
  | 48 => .fifo .monit1 .amp .w0
  | 49 => .fifo .monit1 .amp .w1
  | 50 => .fifo .monit1 .amp .w2
  | 51 => .fifo .monit1 .amp .w3
  | 52 => .csr .monit1 .amp
  | 53 => .fifo .monit1 .pos .w0
  | 54 => .fifo .monit1 .pos .w1
  | 55 => .fifo .monit1 .pos .w2
  | 56 => .fifo .monit1 .pos .w3
  | 57 => .csr .monit1 .pos
  | _ => .others

/-- The bit of `ack_sreg` that an access sets when it is taken up. -/
def ackBit (adr : BitVec 7) : ℕ :=
  if adr.toNat < 6 then 3
  else if adr.toNat < 10 then 5
  else if adr.toNat < 12 then 4
  else if adr.toNat < 20 then 3
  else if adr.toNat < 58 then 0
  else if adr.toNat = 58 ∨ adr.toNat = 60 ∨ adr.toNat = 63 ∨ adr.toNat = 66 then 5
  else if adr.toNat = 71 then 0
  else if adr.toNat < 88 then 3
  else 0

abbrev Access := Request 7

/-- The acknowledge bit of a request. -/
def latency (r : Access) : ℕ := ackBit r.adr

/-- A write to the update register of a rate. -/
def updates (rt : Rate) (r : Access) : Bool := r.we && decide (decode r.adr = .updt rt)

/-- An access to the first word of a FIFO. -/
def isHead (rt : Rate) (kd : Kind) (r : Access) : Bool := decide (decode r.adr = .fifo rt kd .w0)

/-- The registers of the monitoring are acknowledged at once. -/
theorem latency_eq_zero {r : Access} (h : decode r.adr ≠ .others) : latency r = 0 := by
  have hall : ∀ a : BitVec 7, decode a ≠ .others → ackBit a = 0 := by decide
  exact hall r.adr h

/-! ## The records -/

/-- Four words as one, the first one lowest. -/
def packWords (x : Word → BitVec w) : BitVec (w + w + w + w) :=
  x .w3 ++ x .w2 ++ x .w1 ++ x .w0

/-- One of the four words. -/
def wordOf (v : BitVec (w + w + w + w)) (c : Word) : BitVec w := v.extractLsb' (c.index * w) w

theorem wordOf_packWords (x : Word → BitVec w) (c : Word) : wordOf (packWords x) c = x c := by
  unfold wordOf packWords Word.index
  cases c with
  | w0 =>
    rw [Nat.zero_mul]
    exact BitVec.extractLsb'_append_eq_right
  | w1 =>
    rw [Nat.one_mul, BitVec.extractLsb'_append_eq_of_le le_rfl, Nat.sub_self]
    exact BitVec.extractLsb'_append_eq_right
  | w2 =>
    rw [Nat.two_mul, BitVec.extractLsb'_append_eq_of_le (by omega), Nat.add_sub_cancel,
      BitVec.extractLsb'_append_eq_of_le le_rfl, Nat.sub_self]
    exact BitVec.extractLsb'_append_eq_right
  | w3 =>
    rw [show 3 * w = w + w + w by omega, BitVec.extractLsb'_append_eq_of_le (by omega),
      Nat.add_sub_cancel, BitVec.extractLsb'_append_eq_of_le (by omega), Nat.add_sub_cancel]
    exact BitVec.extractLsb'_append_eq_left

/-- What the position core gives to a path at a tick. -/
structure PathIn (w : ℕ) where
  ce : Bool
  valid : Bool
  words : Word → BitVec w
  /-- `f_dup_counter_array` of the test counter of the path -/
  test : BitVec (w + w + w + w)

/-- The record that a path takes. -/
def PathIn.record (i : PathIn w) (testData : Bool) : BitVec (w + w + w + w) :=
  if testData then i.test else packWords i.words

/-- The words of that record. -/
def PathIn.word (i : PathIn w) (testData : Bool) (c : Word) : BitVec w :=
  if testData then wordOf i.test c else i.words c

theorem wordOf_record (i : PathIn w) (b : Bool) (c : Word) :
    wordOf (i.record b) c = i.word b c := by
  cases b with
  | false => exact wordOf_packWords i.words c
  | true => rfl

/-- `c_cdc_ref_size` -/
def cdcRefSize : ℕ := 4

/-- The core of the FIFOs that the bus reads, `wbgen2_fifo_sync` with `g_usedw_size` 4. -/
abbrev RecordFifo := SyncFifo (Word → BitVec 32) 4

/-- One path: `fifo_monit_amp_out` and its valid, `position_calc_cdc_fifo`, the registers
`monit_amp_ch0_wb_sync` to `monit_amp_ch3_wb_sync`, and `pos_calc_ampfifo_monit_INST`; the other
three likewise. -/
structure Path (w : ℕ) (F : RecordFifo) where
  out : BitVec (w + w + w + w)
  outValid : Bool
  cdc : FifoCrossing (BitVec (w + w + w + w))
  sync : Word → BitVec w
  fifo : F.State

variable {F : RecordFifo}

namespace Path

/-- A path with `z` in its registers, and empty FIFOs, the second of them after a reset. -/
def powerUp (z : BitVec (w + w + w + w)) (y : F.State) : Path w F :=
  ⟨z, false, .powerUp z, wordOf z, F.afterReset y⟩

/-- The record that goes into the FIFO that the bus reads, each word after `resize`. -/
def push (p : Path w F) (sys : Bool) : Option (Word → BitVec 32) :=
  if sys && p.cdc.valid && !F.full p.fifo then some fun c => (wordOf p.cdc.q c).signExtend 32
  else none

/-- **One tick of a path**. In the amplitude paths the valid is `cnt_up_array` while test data is
on, which is wired to the same valid. -/
def tick (p : Path w F) (i : PathIn w) (sys fs rstN testData updt rdreq overrun : Bool) (k : ℕ) :
    Path w F where
  out := if fs && i.ce then i.record testData else p.out
  outValid := if fs then i.ce && i.valid else p.outValid
  cdc := p.cdc.tick cdcRefSize overrun (if fs && p.outValid then some p.out else none)
    (if sys then some k else none)
  sync :=
    if sys then if rstN = false then fun _ => 0 else if updt then wordOf p.cdc.q else p.sync
    else p.sync
  fifo := if sys then F.step p.fifo ⟨rstN, p.push sys, rdreq⟩ else p.fifo

end Path

/-! ## The bank -/

/-- The inputs at a tick: the edges of the two clocks, the reset, the bus, the records, whether each
FIFO between the clocks takes a word while it is full and how many words become visible in it, and
what the rest of the bank gives to `rddata_reg`. -/
structure MonitIn (w : ℕ) where
  sys : Bool
  fs : Bool
  rstN : Bool
  bus : Bus 7
  testData : Bool
  path : Rate → Kind → PathIn w
  overrun : Rate → Kind → Bool
  visible : Rate → Kind → ℕ
  undefined : BitVec 32
  other : BitVec 32

/-- What the registers of the paths hold at power-up. -/
structure PowerUp (w : ℕ) (F : RecordFifo) where
  record : Rate → Kind → BitVec (w + w + w + w)
  fifo : Rate → Kind → F.State

/-- The registers of `wb_pos_calc_regs` that the monitoring uses. -/
structure MonitRegs where
  ack : AckGen 10
  rddata : BitVec 32
  updtWr : Rate → Bool
  /-- `pos_calc_ampfifo_monit_rdreq_int` and `pos_calc_ampfifo_monit_rdreq_int_d0`, and siblings -/
  port : Rate → Kind → ReadPort

/-- The bank while `rst_n_i` is low. -/
def MonitRegs.reset : MonitRegs := ⟨.idle, 0, fun _ => false, fun _ _ => .idle⟩

/-- The bank and the four paths. -/
structure Monit (w : ℕ) (F : RecordFifo) where
  regs : MonitRegs
  path : Rate → Kind → Path w F

namespace Monit

/-- `rddata_reg` of the status of a FIFO: full, empty and the number of records, four bits of it. -/
def csrWord (p : Path w F) (undefined : BitVec 32) : BitVec 32 :=
  undefined.extractLsb' 18 14 ++ BitVec.ofBool (F.isEmpty p.fifo) ++
    BitVec.ofBool (F.full p.fifo) ++ undefined.extractLsb' 4 12 ++ F.usedw p.fifo

/-- The accesses to the first word of a FIFO wait for the record. -/
def ready (s : Monit w F) (r : Access) : Bool :=
  match decode r.adr with
  | .fifo rt kd c => decide (c ≠ .w0) || (s.regs.port rt kd).rdreqD0
  | _ => true

/-- The request that the bank looks at. -/
def gated (s : Monit w F) (i : MonitIn w) : Option Access := gate s.ready s.regs.ack i.bus.req

/-- What an access puts into `rddata_reg` when it is taken up. -/
def readStart (s : Monit w F) (i : MonitIn w) (r : Access) : BitVec 32 :=
  match decode r.adr with
  -- `resize` of a signed word
  | .word rt kd c => ((s.path rt kd).sync c).signExtend 32
  | .updt _ => i.undefined
  | .fifo rt kd c => F.q (s.path rt kd).fifo c
  | .csr rt kd => csrWord (s.path rt kd) i.undefined
  | .others => i.other

/-- `rddata_reg` at a tick. -/
def rddataNext (s : Monit w F) (i : MonitIn w) : Option (Move Access) → BitVec 32
  | some (.start r) => s.readStart i r
  -- the registers of the other clock that the rest of the bank hands on
  | some .advance => i.other
  | _ => s.regs.rddata

/-- `pos_calc_dsp_monit_updt_wr_o` and its sibling at a tick. -/
def updtWrNext (s : Monit w F) (rt : Rate) : Option (Move Access) → Bool
  | some (.start r) => updates rt r || s.regs.updtWr rt
  | some .advance => false
  | some .finish => false
  | _ => s.regs.updtWr rt

/-- What the slave does at a tick. -/
def move (s : Monit w F) (i : MonitIn w) : Option (Move Access) :=
  slaveMove i.sys (s.gated i) s.regs.ack

/-- The clocked branches of the bank. -/
def regsNext (s : Monit w F) (i : MonitIn w) : MonitRegs where
  ack := if i.sys then s.regs.ack.next latency (s.gated i) else s.regs.ack
  rddata := s.rddataNext i (s.move i)
  updtWr rt := s.updtWrNext rt (s.move i)
  port rt kd :=
    if i.sys then (s.regs.port rt kd).next (asks (isHead rt kd) s.regs.ack i.bus.req)
    else s.regs.port rt kd

/-- **One tick of the monitoring**. -/
def tick (s : Monit w F) (i : MonitIn w) : Monit w F where
  regs := if i.rstN = false then .reset else s.regsNext i
  path rt kd := (s.path rt kd).tick (i.path rt kd) i.sys i.fs i.rstN i.testData
    (s.regs.updtWr rt) (s.regs.port rt kd).rdreq (i.overrun rt kd) (i.visible rt kd)

/-- The bank in reset, and the paths at power-up. -/
def start (z : PowerUp w F) : Monit w F :=
  ⟨.reset, fun rt kd => .powerUp (z.record rt kd) (z.fifo rt kd)⟩

end Monit

/-! ## Runs -/

section Runs

variable (z : PowerUp w F) (inp : ℕ → MonitIn w)

/-- The monitoring from reset on. -/
abbrev monitRun (t : ℕ) : Monit w F := run Monit.tick (.start z) inp t

/-- The accesses taken up, by tick. -/
abbrev accessTaken : ℕ → Option Access :=
  started (fun t => (inp t).sys) (fun t => (monitRun z inp t).gated (inp t))
    fun t => (monitRun z inp t).regs.ack

/-- The accesses that the master sees accepted, by tick. -/
abbrev accessDone : ℕ → Option Access :=
  accepted (fun t => (inp t).sys) (fun t => (inp t).bus.req) fun t => (monitRun z inp t).regs.ack

/-- The master keeps a request up to the edge at which it is not stalled. -/
abbrev Keeps : Prop :=
  Patient (fun t => (inp t).sys) (fun t => (inp t).bus.req) fun t => (monitRun z inp t).regs.ack

variable {z inp} {t u : ℕ} {r : Access}

theorem monitRun_path_succ (rt : Rate) (kd : Kind) (t : ℕ) :
    (monitRun z inp (t + 1)).path rt kd = ((monitRun z inp t).path rt kd).tick
      ((inp t).path rt kd) (inp t).sys (inp t).fs (inp t).rstN (inp t).testData
      ((monitRun z inp t).regs.updtWr rt) ((monitRun z inp t).regs.port rt kd).rdreq
      ((inp t).overrun rt kd) ((inp t).visible rt kd) := rfl

/-! ## The source of a record -/

/-- A word is written to the FIFO one edge of `fs_clk_i` after it was taken. -/
theorem out_of_outValid {rt : Rate} {kd : Kind} {y : ℕ}
    (hv : ((monitRun z inp y).path rt kd).outValid = true) :
    ∃ x, latest (fun t => (inp t).fs) y = some x ∧ ((inp x).path rt kd).ce = true ∧
      ((inp x).path rt kd).valid = true ∧
      ((monitRun z inp y).path rt kd).out = ((inp x).path rt kd).record (inp x).testData := by
  have hvalid := eq_sampled (r := fun t => ((monitRun z inp t).path rt kd).outValid)
    (v := fun t => (inp t).fs) (d := fun t => ((inp t).path rt kd).ce && ((inp t).path rt kd).valid)
    (z := false) rfl (fun t => rfl) y
  have hout := eq_sampled (r := fun t => ((monitRun z inp t).path rt kd).out)
    (v := fun t => (inp t).fs && ((inp t).path rt kd).ce)
    (d := fun t => ((inp t).path rt kd).record (inp t).testData) rfl (fun t => rfl) y
  beta_reduce at hvalid hout
  rw [hvalid] at hv
  cases hx : latest (fun t => (inp t).fs) y with
  | none => simp [sampled_of_none hx] at hv
  | some x =>
    rw [sampled_of_latest hx, Bool.and_eq_true] at hv
    refine ⟨x, rfl, hv.1, hv.2, ?_⟩
    -- the edge that set the valid has also taken the record
    obtain ⟨hxy, hfx, hno⟩ := latest_eq_some_iff.mp hx
    rw [hout]
    apply sampled_of_latest
    refine latest_eq_some_iff.mpr ⟨hxy, by rw [hfx, hv.1]; rfl, ?_⟩
    intro q hxq hqy
    rw [hno q hxq hqy, Bool.false_and]

/-- The words of the record taken at tick `x`, as `x + 1`; `0` is the power-up. -/
def recordAt (z : PowerUp w F) (inp : ℕ → MonitIn w) (rt : Rate)
    (kd : Kind) : ℕ → Word → BitVec w
  | 0 => wordOf (z.record rt kd)
  | x + 1 => ((inp x).path rt kd).word (inp x).testData

/-- **What the FIFO of a path shows is one of the records**; it never goes back, and each read shows
a later one. -/
theorem exists_record (z : PowerUp w F) (inp : ℕ → MonitIn w) (rt : Rate) (kd : Kind) :
    ∃ src : ℕ → ℕ, Monotone src ∧
      (∀ e x, src e = x + 1 → x < e ∧ (inp x).fs = true ∧ ((inp x).path rt kd).ce = true ∧
        ((inp x).path rt kd).valid = true) ∧
      (∀ t, (inp t).sys = true → ¬ ((monitRun z inp t).path rt kd).cdc.fifo.isEmpty = true →
        src t < src (t + 1)) ∧
      ∀ e, wordOf ((monitRun z inp e).path rt kd).cdc.q = recordAt z inp rt kd (src e) := by
  obtain ⟨src, hmono, hlater, hsrc⟩ := FifoCrossing.exists_source
    (x := fun t => ((monitRun z inp t).path rt kd).cdc)
    (d := fun t => if (inp t).fs && ((monitRun z inp t).path rt kd).outValid
      then some ((monitRun z inp t).path rt kd).out else none)
    (k := fun t => if (inp t).sys then some ((inp t).visible rt kd) else none)
    (o := fun t => (inp t).overrun rt kd) (z := z.record rt kd) rfl (fun _ => rfl)
  have hq : ∀ e, (src e = 0 ∧ ((monitRun z inp e).path rt kd).cdc.q = z.record rt kd) ∨
      ∃ y x, src e = y + 1 ∧ (inp y).fs = true ∧ latest (fun t => (inp t).fs) y = some x ∧
        ((inp x).path rt kd).ce = true ∧ ((inp x).path rt kd).valid = true ∧
        ((monitRun z inp e).path rt kd).cdc.q = ((inp x).path rt kd).record (inp x).testData := by
    intro e
    rcases (hsrc e).2 with h | ⟨y, hy, hwe⟩
    · exact .inl h
    · right
      obtain ⟨⟨hf, hv⟩, hout⟩ : ((inp y).fs = true ∧
          ((monitRun z inp y).path rt kd).outValid = true) ∧
          ((monitRun z inp y).path rt kd).out = ((monitRun z inp e).path rt kd).cdc.q := by
        simpa using hwe
      obtain ⟨x, hx, hce, hvx, hrec⟩ := out_of_outValid hv
      exact ⟨y, x, hy, hf, hx, hce, hvx, hout.symm.trans hrec⟩
  refine ⟨fun e => (latest (fun t => (inp t).fs) (src e - 1)).elim 0 (· + 1), ?_, ?_, ?_, ?_⟩
  · exact fun a b hab => monotone_latest (Nat.sub_le_sub_right (hmono hab) 1)
  · intro e x hx
    beta_reduce at hx
    rcases hq e with ⟨h0, -⟩ | ⟨y, x', hy, -, hl, hce, hvx, -⟩
    · rw [h0] at hx
      cases hx
    · rw [hy, Nat.add_sub_cancel, hl, Option.elim_some, Nat.add_right_cancel_iff] at hx
      subst hx
      obtain ⟨hxy, hfx, -⟩ := latest_eq_some_iff.mp hl
      have hle := (hsrc e).1
      exact ⟨by omega, hfx, hce, hvx⟩
  · intro t hs he
    have hlt := hlater t _ (if_pos hs) he
    beta_reduce
    rcases hq (t + 1) with ⟨h0, -⟩ | ⟨y, x, hy, -, hl, -⟩
    · omega
    · rw [hy, Nat.add_sub_cancel, hl, Option.elim_some]
      rcases hq t with ⟨h0, -⟩ | ⟨y', x', hy', hf', hl', -⟩
      · rw [h0]
        exact Nat.succ_pos x
      · rw [hy', Nat.add_sub_cancel, hl', Option.elim_some]
        have hx' := (latest_eq_some_iff.mp hl').1
        have hle : y' ≤ x := by
          by_contra hgt
          have hno := (latest_eq_some_iff.mp hl).2.2 y' (by omega) (by omega)
          rw [hf'] at hno
          cases hno
        omega
  · intro e
    beta_reduce
    rcases hq e with ⟨h0, hz⟩ | ⟨y, x, hy, -, hl, -, -, hrec⟩
    · rw [h0, hz]
      rfl
    · rw [hy, Nat.add_sub_cancel, hl, hrec]
      funext c
      exact wordOf_record _ _ c

/-! ## The update -/

variable (hrst : ∀ t, (inp t).rstN = true)

include hrst

theorem monitRun_regs_succ (t : ℕ) :
    (monitRun z inp (t + 1)).regs = (monitRun z inp t).regsNext (inp t) := by
  rw [monitRun, run_succ, Monit.tick, if_neg (by simp [hrst t])]

/-- **The bank is a slave that serves one access at a time**. -/
theorem monit_slave : Slave latency (fun t => (inp t).sys)
    (fun t => (monitRun z inp t).gated (inp t)) fun t => (monitRun z inp t).regs.ack where
  zero := rfl
  succ t := by
    rw [monitRun_regs_succ hrst]
    rfl
  lat_lt r := by
    unfold latency ackBit
    split_ifs <;> omega

/-- What waits does so at the edges of the bus clock. -/
theorem ready_hold (t : ℕ) (hs : (inp t).sys = false) :
    (monitRun z inp (t + 1)).ready = (monitRun z inp t).ready := by
  have hport : (monitRun z inp (t + 1)).regs.port = (monitRun z inp t).regs.port := by
    rw [monitRun_regs_succ hrst]
    simp [Monit.regsNext, hs]
  funext r
  rw [Monit.ready, Monit.ready, hport]

/-- The master keeps its requests for the bank as it sees them. -/
theorem Keeps.gated (hk : Keeps z inp) : Patient (fun t => (inp t).sys)
    (fun t => (monitRun z inp t).gated (inp t)) fun t => (monitRun z inp t).regs.ack :=
  (monit_slave hrst).patient_gate hk (ready_hold hrst)

/-- **Each access taken up is accepted once, and no other one**. -/
theorem accessDone_iff (hk : Keeps z inp) :
    accessDone z inp t = some r ↔ (inp t).sys = true ∧ ∃ u, accessTaken z inp u = some r ∧ u < t ∧
      (strobes (fun t => (inp t).sys) (u + 1) t).card = latency r := by
  rw [← (monit_slave hrst).accepted_iff (hk.gated hrst)]
  exact Eq.congr_left (congrFun (monit_slave hrst).accepted_gate.symm t)

/-- The update pulse is down while the slave is free. -/
theorem updtWr_of_idle {rt : Rate} (hi : (monitRun z inp t).regs.ack = .idle) :
    (monitRun z inp t).regs.updtWr rt = false := by
  refine ((monit_slave hrst).invariant (x := fun t => (monitRun z inp t).regs)
    (I := fun s => s.updtWr rt = false) (B := fun _ _ _ => True) rfl ?_ ?_ ?_ ?_ ?_ t).1 hi
  · intro t hs
    simp [monitRun_regs_succ hrst, Monit.regsNext, Monit.move, Monit.updtWrNext, slaveMove, hs]
  · intro t hs hm hI
    simp [monitRun_regs_succ hrst, Monit.regsNext, Monit.move, Monit.updtWrNext, slaveMove, hs, hm,
      hI]
  · exact fun _ _ _ _ _ => trivial
  · exact fun _ _ _ _ _ _ _ _ => trivial
  · intro t r hs hm _
    simp [monitRun_regs_succ hrst, Monit.regsNext, Monit.move, Monit.updtWrNext, slaveMove, hs, hm]

/-- **The update pulse lasts for one edge after its write**. -/
theorem updtWr_eq (rt : Rate) (t : ℕ) :
    (monitRun z inp t).regs.updtWr rt = sampled (fun t => (inp t).sys) false
      (fun y => (accessTaken z inp y).any (updates rt)) t := by
  apply eq_sampled (r := fun t => (monitRun z inp t).regs.updtWr rt) rfl
  intro t
  have hnext : (monitRun z inp (t + 1)).regs.updtWr rt =
      (monitRun z inp t).updtWrNext rt ((monitRun z inp t).move (inp t)) := by
    rw [monitRun_regs_succ hrst]
    rfl
  rw [hnext, Monit.move, slaveMove]
  by_cases hs : (inp t).sys = true
  · rw [if_pos hs, if_pos hs]
    rcases (monit_slave hrst (z := z)).idle_or_due t with hi | ⟨j, hj, hd⟩
    · have hdown : (monitRun z inp t).regs.updtWr rt = false := updtWr_of_idle hrst hi
      cases hr : (monitRun z inp t).gated (inp t) with
      | none => simp [hi, started, hr, Monit.updtWrNext, hdown]
      | some r => simp [hi, started, hr, hs, Monit.updtWrNext, hdown, AckGen.idle, AckGen.move]
    · cases j with
      | zero => simp [hd, started, AckGen.move_due_zero hj, Monit.updtWrNext]
      | succ j => simp [hd, started, AckGen.move_due_succ hj, Monit.updtWrNext]
  · rw [if_neg hs, if_neg hs]
    rfl

/-- An update is done at the first edge of the bus clock after it was taken up. -/
theorem updtWr_of_nthAfter {rt : Rate} {u₀ e : ℕ} {q₀ : Access}
    (hu : accessTaken z inp u₀ = some q₀) (hq : updates rt q₀ = true)
    (he : NthAfter (fun t => (inp t).sys) 0 u₀ e) : (monitRun z inp e).regs.updtWr rt = true := by
  obtain ⟨hlt, -, hc⟩ := he
  have hlast : latest (fun t => (inp t).sys) e = some u₀ := by
    refine latest_eq_some_iff.mpr ⟨hlt, ((monit_slave hrst).started_eq_some.mp hu).1, ?_⟩
    intro y huy hye
    by_contra hs
    have := card_strobes_pos (v := fun t => (inp t).sys) (by simpa using hs)
      (show u₀ + 1 ≤ y from huy) hye
    omega
  rw [updtWr_eq hrst, sampled_of_latest hlast, hu]
  exact hq

/-- From there to the next update, the bus reads what the FIFO showed at that edge. -/
theorem sync_eq {rt : Rate} (kd : Kind) {u₀ e x : ℕ} {q₀ : Access}
    (hu : accessTaken z inp u₀ = some q₀) (hq : updates rt q₀ = true)
    (he : NthAfter (fun t => (inp t).sys) 0 u₀ e) (hex : e < x)
    (hno : ∀ y q, u₀ < y → y < x → accessTaken z inp y = some q → updates rt q = false) :
    ((monitRun z inp x).path rt kd).sync = wordOf ((monitRun z inp e).path rt kd).cdc.q := by
  have hup := updtWr_of_nthAfter hrst hu hq he
  have hse : (inp e).sys = true := he.2.1
  rw [hold_between (g := fun t => ((monitRun z inp t).path rt kd).sync) hex]
  · rw [monitRun_path_succ]
    simp [Path.tick, hse, hrst, hup]
  · intro y hey hyx
    rw [monitRun_path_succ]
    simp only [Path.tick, hrst, Bool.true_eq_false, if_false]
    by_cases hs : (inp y).sys = true
    · -- a pulse here would come from another update
      have hdown : (monitRun z inp y).regs.updtWr rt = false := by
        rw [updtWr_eq hrst]
        cases hv : latest (fun t => (inp t).sys) y with
        | none => exact sampled_of_none hv
        | some v =>
          obtain ⟨hvy, -, hlast⟩ := latest_eq_some_iff.mp hv
          have hev : e ≤ v := by
            by_contra hve
            have := hlast e (by omega) (by omega)
            rw [hse] at this
            cases this
          rw [sampled_of_latest hv]
          cases hw : accessTaken z inp v with
          | none => rfl
          | some q => exact hno v q (lt_of_lt_of_le he.1 hev) (by omega) hw
      simp [hs, hdown]
    · simp [hs]

/-- The answer of an access that is acknowledged at once is what it found when it was taken up. -/
theorem rddata_eq (hu : accessTaken z inp u = some r) (hut : u < t)
    (hc : (strobes (fun t => (inp t).sys) (u + 1) t).card = 0) :
    (monitRun z inp t).regs.rddata = (monitRun z inp u).readStart (inp u) r := by
  have hnext : ∀ t, (monitRun z inp (t + 1)).regs.rddata =
      (monitRun z inp t).rddataNext (inp t) ((monitRun z inp t).move (inp t)) := by
    intro t
    rw [monitRun_regs_succ hrst]
    rfl
  rw [hold_between (g := fun t => (monitRun z inp t).regs.rddata) hut, hnext]
  · obtain ⟨hs, hi, hr⟩ := (monit_slave hrst).started_eq_some.mp hu
    rw [Monit.move, slaveMove, if_pos hs, hi, hr]
    rfl
  · intro y huy hyt
    have hs : ¬ (inp y).sys = true := by
      intro hs
      have := card_strobes_pos (v := fun t => (inp t).sys) hs (show u + 1 ≤ y from huy) hyt
      omega
    rw [hnext, Monit.move, slaveMove, if_neg hs]
    rfl

/-- What is taken up after an access is taken up after the edge that follows it. -/
theorem lt_of_taken_after {u₀ e : ℕ} {q₀ : Access} (hu : accessTaken z inp u₀ = some q₀)
    (he : NthAfter (fun t => (inp t).sys) 0 u₀ e) (hur : accessTaken z inp u = some r)
    (hlt : u₀ < u) : e < u := by
  have hsu := ((monit_slave hrst).started_eq_some.mp hur).1
  rcases Nat.lt_trichotomy e u with h | rfl | h
  · exact h
  · have hnone := (monit_slave hrst).started_eq_none hu he.1 (by rw [he.2.2]; exact Nat.zero_le _)
    cases hnone.symm.trans hur
  · have := card_strobes_pos (v := fun t => (inp t).sys) hsu (show u₀ + 1 ≤ u from hlt) h
    have := he.2.2
    omega

/-- **All words read between two updates are words of one record**, of each kind: the record that
its FIFO showed at the edge after the update. The records that software reads this way were taken at
edges of `fs_clk_i` with a valid, and come in order. -/
theorem reads_of_one_record (hk : Keeps z inp) (rt : Rate) (kd : Kind) :
    ∃ src : ℕ → ℕ, Monotone src ∧
      (∀ e x, src e = x + 1 → x < e ∧ (inp x).fs = true ∧ ((inp x).path rt kd).ce = true ∧
        ((inp x).path rt kd).valid = true) ∧
      ∀ u₀ q₀ e t r c, accessTaken z inp u₀ = some q₀ → updates rt q₀ = true →
        NthAfter (fun t => (inp t).sys) 0 u₀ e → u₀ < t → accessDone z inp t = some r →
        decode r.adr = .word rt kd c →
        (∀ y q, u₀ < y → y < t → accessTaken z inp y = some q → updates rt q = false) →
        (monitRun z inp t).regs.rddata = (recordAt z inp rt kd (src e) c).signExtend 32 := by
  obtain ⟨src, hmono, hvalid, -, hsrc⟩ := exists_record z inp rt kd
  refine ⟨src, hmono, hvalid, ?_⟩
  intro u₀ q₀ e t r c hu hq he hut hdone hr hno
  obtain ⟨-, u, hur, hlt, hc⟩ := (accessDone_iff hrst hk).mp hdone
  rw [latency_eq_zero (by simp [hr])] at hc
  have hu₀u : u₀ < u := by
    rcases Nat.lt_trichotomy u₀ u with h | h | h
    · exact h
    · rw [h] at hu
      rw [Option.some.inj (hu.symm.trans hur)] at hq
      simp [updates, hr] at hq
    · have hs := ((monit_slave hrst).started_eq_some.mp hu).1
      have := card_strobes_pos (v := fun t => (inp t).sys) hs (show u + 1 ≤ u₀ from h) hut
      omega
  have heu := lt_of_taken_after hrst hu he hur hu₀u
  have hstart : (monitRun z inp u).readStart (inp u) r =
      (((monitRun z inp u).path rt kd).sync c).signExtend 32 := by
    rw [Monit.readStart, hr]
  rw [rddata_eq hrst hur hlt hc, hstart,
    sync_eq hrst kd hu hq he heu fun y q hy hyu => hno y q hy (by omega), hsrc]

/-- The core with 16 words, `g_size`. -/
abbrev listedFifo : RecordFifo := SyncFifo.listed _ 16 4

/-- All registers of the paths at zero. -/
def PowerUp.zero : PowerUp w listedFifo := ⟨fun _ _ => 0, fun _ _ => ([], fun _ => 0)⟩

/-- Both clocks at every tick, a record at each of them, and a master that shows the requests of
`f`. -/
def monitScript (f : ℕ → Option Access) (t : ℕ) : MonitIn 32 where
  sys := true
  fs := true
  rstN := true
  bus := .ofReq (f t)
  testData := false
  path _ _ := ⟨true, true, fun c => BitVec.ofNat 32 (4 * t + c.index), 0⟩
  overrun _ _ := false
  visible _ _ := 1
  undefined := 0
  other := 0

/-- Software writes the update register, and reads the amplitudes of the first and the last
channel. -/
def updtScript (t : ℕ) : Option Access :=
  if t < 10 then none
  else if t < 12 then some ⟨true, 28, 1⟩
  else if t < 14 then some ⟨false, 20, 0⟩
  else if t < 16 then some ⟨false, 23, 0⟩
  else none

omit hrst in
theorem updtScript_keeps : Keeps PowerUp.zero (monitScript updtScript) := by
  apply patient_of_finite (m := 16)
  · intro t ht
    have hnone : updtScript t = none := by
      unfold updtScript
      rw [if_neg (by omega), if_neg (by omega), if_neg (by omega), if_neg (by omega)]
    exact (Bus.req_ofReq (updtScript t)).trans hnone
  · decide +kernel

omit hrst in
/-- The two words that the script reads come from one record, though a new one comes at every
tick. -/
theorem updtScript_words :
    (monitRun PowerUp.zero (monitScript updtScript) 15).regs.rddata =
      (monitRun PowerUp.zero (monitScript updtScript) 13).regs.rddata + 3 := by
  obtain ⟨src, -, -, h⟩ := @reads_of_one_record _ _ PowerUp.zero (monitScript updtScript)
    (fun _ => rfl) updtScript_keeps .monit .amp
  have hno : ∀ y < 15, 10 < y → ∀ q ∈ accessTaken PowerUp.zero (monitScript updtScript) y,
      updates .monit q = false := by decide +kernel
  have hfirst := h 10 ⟨true, 28, 1⟩ 11 13 ⟨false, 20, 0⟩ .w0 (by decide +kernel) rfl
    ⟨by decide, rfl, by decide⟩ (by decide) (by decide +kernel) rfl
    fun y q hy hy' hq => hno y (by omega) hy q hq
  have hlast := h 10 ⟨true, 28, 1⟩ 11 15 ⟨false, 23, 0⟩ .w3 (by decide +kernel) rfl
    ⟨by decide, rfl, by decide⟩ (by decide) (by decide +kernel) rfl
    fun y q hy hy' hq => hno y hy' hy q hq
  rw [hlast, hfirst]
  cases hs : src 11 with
  | zero =>
    rw [hs] at hfirst
    exact absurd hfirst (by decide +kernel)
  | succ x =>
    simp only [recordAt, PathIn.word, monitScript, BitVec.signExtend_eq, Word.index]
    simp [← BitVec.ofNat_add]

end Runs

end PositionCalc
