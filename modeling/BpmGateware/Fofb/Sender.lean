import BpmGateware.Clocked.AsyncFifo
import BpmGateware.Clocked.Run

/-!
# The FOFB sender

The positions of two DSP chains cross into the `fs_ref_clk` domain of `dbe_bpm_gen` through one
FIFO each and are sent in pairs to the communication controller. `p_sync_start_fofb_dcc` waits
for the controller to be enabled and for a trigger, then presents a pair whenever both FIFOs have
a word. Its register `dsp_fofb_pos_enable_bpm_data` is also the reset of both FIFOs, so they hold
only what is written after the trigger was accepted.

A run is a list of events: a write by either chain, or an edge of `fs_ref_clk`. The FIFOs
`inferred_async_fwft_fifo` are of depth eight, show their oldest word while they have one, and are
empty while their reset is low. `fs_ref_rstn` belongs to the `fs_ref_clk` domain: an edge may
change its level for the cycle that follows.

## Main definitions

* `fToSlv`, `fToFofbArray`: the words in the FIFOs
* `Sender`, `senderStep`: the FIFOs and `p_sync_start_fofb_dcc`
* `Log`, `logStep`: what was written, and presented since the session began

## Main results

* `unpack_pack`: packing loses nothing
-/

namespace Fofb

open Clocked

variable {b : ℕ}

/-! ## The words in the FIFOs -/

/-- One position of a chain. -/
structure Pos (b : ℕ) where
  x : BitVec b
  y : BitVec b
  deriving DecidableEq, Repr

/-- `f_to_slv`, for arrays of `c_BPMS = 2` elements: element `i` goes to slice `i`. -/
def fToSlv (a : Fin 2 → BitVec b) : BitVec (b + b) := a 1 ++ a 0

/-- `f_to_fofb_array`: element `i` is slice `i`. -/
def fToFofbArray (v : BitVec (b + b)) (i : Fin 2) : BitVec b := v.extractLsb' (i * b) b

/-- The word written for a position. The aggregate `(x, y)` fills the array from its left bound,
index one. -/
def pack (p : Pos b) : BitVec (b + b) := fToSlv fun i => if i = 1 then p.x else p.y

/-- The position read from a word. -/
def unpack (v : BitVec (b + b)) : Pos b := ⟨fToFofbArray v 1, fToFofbArray v 0⟩

theorem fToFofbArray_fToSlv (a : Fin 2 → BitVec b) : fToFofbArray (fToSlv a) = a := by
  funext i
  apply BitVec.eq_of_getLsbD_eq
  intro j hj
  rw [fToFofbArray, fToSlv, BitVec.getLsbD_extractLsb', BitVec.getLsbD_append]
  match i with
  | 0 => simp [hj]
  | 1 => simp [hj]

@[simp] theorem unpack_pack (p : Pos b) : unpack (pack p) = p := by
  simp [unpack, pack, fToFofbArray_fToSlv]

/-! ## The sender -/

/-- The two DSP chains. -/
inductive Dsp
  | dsp1
  | dsp2
  deriving DecidableEq, Repr

/-- `t_fai_fa_pl_state` -/
inductive PlState
  | idle
  | waitTrigger
  | sendBpmData
  deriving DecidableEq, Repr

/-- The registers of `p_sync_start_fofb_dcc`, the FIFOs of both chains, and the level of
`fs_ref_rstn`. -/
structure Sender (b : ℕ) where
  rstn : Bool
  /-- `fai_fa_pl_state` -/
  state : PlState
  /-- `fai_fa_pl_data_valid_r` -/
  dataValid : Bool
  /-- `dsp_fofb_pos_enable_bpm_data` -/
  enableBpmData : Bool
  /-- `fai_fa_pl_d_x_r`: element 0 is chain 1, element 1 is chain 2 -/
  dX : Dsp → BitVec b
  /-- `fai_fa_pl_d_y_r` -/
  dY : Dsp → BitVec b
  /-- `cmp_dsp_1_fofb_fifo`, `cmp_dsp_2_fofb_fifo` -/
  fifo : Dsp → AsyncFifo (BitVec (b + b))

/-- What an edge of `fs_ref_clk` samples; `rstn` is the level of `fs_ref_rstn` after it, `vis` the
number of words that become visible in each FIFO, and `junk` what `rd_data_o` shows while a FIFO
has no word. -/
structure Edge (b : ℕ) where
  ccEnable : Bool
  trig : Bool
  rstn : Bool
  vis : Dsp → ℕ
  junk : Dsp → BitVec (b + b)

/-- What happens to the sender. -/
inductive Event (b : ℕ)
  | write (d : Dsp) (p : Pos b)
  | edge (i : Edge b)

/-- The size of both FIFOs. -/
def fifoSize : ℕ := 8

namespace Sender

variable (s : Sender b)

/-- `dsp_fofb_pos_rstn` -/
def posRstn : Bool := s.rstn && s.enableBpmData

/-- `dsp_fofb_pos_fifo_rden`: both FIFOs have a word. -/
def fifoRden : Bool := !(s.fifo .dsp1).isEmpty && !(s.fifo .dsp2).isEmpty

/-- The position at the read side of a FIFO. -/
def out (i : Edge b) (d : Dsp) : Pos b := unpack ((s.fifo d).ready.head?.getD (i.junk d))

/-- The registers of `p_sync_start_fofb_dcc` after an edge. -/
def fsm (i : Edge b) : Sender b :=
  if s.rstn = false then
    { s with state := .idle, dataValid := false, enableBpmData := false }
  else
    match s.state with
    | .idle =>
      { s with dataValid := false, state := if i.ccEnable then .waitTrigger else .idle }
    | .waitTrigger =>
      if i.ccEnable = false then { s with state := .idle }
      else if i.trig then { s with enableBpmData := true, state := .sendBpmData }
      else s
    | .sendBpmData =>
      let s' : Sender b :=
        { s with
          dataValid := s.fifoRden
          dX := fun d => (s.out i d).x
          dY := fun d => (s.out i d).y }
      -- the last assignment wins: a pair read at the disabling edge is dropped
      if i.ccEnable = false then
        { s' with dataValid := false, enableBpmData := false, state := .idle }
      else s'

/-- A FIFO after an edge of its read clock: the oldest word is popped, others become visible, and
everything is lost if its reset is low. -/
def readFifo (posRstn rden : Bool) (vis : ℕ) (f : AsyncFifo (BitVec (b + b))) :
    AsyncFifo (BitVec (b + b)) :=
  if posRstn then (if rden then f.pop else f).sync vis else AsyncFifo.nil

/-- A FIFO after a write, which it ignores while its reset is low. -/
def writeFifo (posRstn : Bool) (p : Pos b) (f : AsyncFifo (BitVec (b + b))) :
    AsyncFifo (BitVec (b + b)) :=
  if posRstn then f.push fifoSize (pack p) else f

/-- The pair at the output registers. -/
def presents : Pos b × Pos b := (⟨s.dX .dsp1, s.dY .dsp1⟩, ⟨s.dX .dsp2, s.dY .dsp2⟩)

end Sender

/-- **One event of the sender**. -/
def senderStep (s : Sender b) : Event b → Sender b
  | .write d p =>
    { s with
      fifo := fun d' => if d' = d then Sender.writeFifo s.posRstn p (s.fifo d) else s.fifo d' }
  | .edge i =>
    let s' := { s.fsm i with rstn := i.rstn }
    -- the FIFOs are empty while their reset is low, so its level after the edge decides
    { s' with fifo := fun d => Sender.readFifo s'.posRstn s.fifoRden (i.vis d) (s.fifo d) }

/-- The sender before its first edge, at either level of the reset. -/
def Sender.powerUp (rstn : Bool) : Sender b where
  rstn := rstn
  state := .idle
  dataValid := false
  enableBpmData := false
  dX _ := 0
  dY _ := 0
  fifo _ := AsyncFifo.nil

/-! ## The log of a run -/

/-- What an observer of the sender writes down: all that each chain has written, how much of it
before the present session began, and the pairs presented in it. A session is a stretch with
`dsp_fofb_pos_enable_bpm_data`. -/
structure Log (b : ℕ) where
  all : Dsp → List (Pos b)
  start : Dsp → ℕ
  presented : List (Pos b × Pos b)

namespace Log

/-- The samples a chain has written in the present session. -/
def written (h : Log b) (d : Dsp) : List (Pos b) := (h.all d).drop (h.start d)

def empty : Log b := ⟨fun _ => [], fun _ => 0, []⟩

/-- The log with one more sample. -/
def write (h : Log b) (d : Dsp) (p : Pos b) : Log b :=
  { h with all := fun d' => if d' = d then h.all d ++ [p] else h.all d' }

/-- The log when a session begins. -/
def begin (h : Log b) : Log b := { h with start := fun d => (h.all d).length, presented := [] }

/-- The log with the pair at the outputs, if it is valid. -/
def present (h : Log b) (s : Sender b) : Log b :=
  if s.dataValid then { h with presented := h.presented ++ [s.presents] } else h

end Log

/-- The sender under observation. -/
def logStep (st : Sender b × Log b) (e : Event b) : Sender b × Log b :=
  (senderStep st.1 e,
    match e with
    | .write d p => st.2.write d p
    | .edge _ => (if st.1.enableBpmData then st.2 else st.2.begin).present (senderStep st.1 e))

end Fofb
