import BpmGateware.Clocked.AsyncFifo
import BpmGateware.OrbitIntlk.Basic

/-!
# The clock-domain crossing of the interlock

`orbit_intlk_cdc` brings the decimated positions of both monitors into the `ref_clk` domain:
eight FIFOs `orbit_intlk_cdc_fifo` of depth four, one for each monitor and word, all read by one
strobe, `decim_pos_synch_rd`, which looks at the empty flags of the two channel-0 FIFOs only. A
read of an empty FIFO is ignored, so a strobe that comes while another channel is still empty
leaves that channel one word behind for good. As long as every strobe finds all eight FIFOs
filled, the outputs are the two streams of samples, paired one by one.

A run is a list of events: a sample written by one monitor, or a `ref_clk` edge, at which each
FIFO decides for itself how many words become visible. The FIFOs of the `adc_*` ports are built
the same way and feed nothing in the interlock; they are left out.

## Main definitions

* `CdcFifo`, `CdcFifo.edge`: one `orbit_intlk_cdc_fifo`
* `Cdc`, `cdcStep`: the eight of them, and their strobe
* `cdcTrace`: the outputs of `orbit_intlk_cdc`, one for each `ref_clk` cycle

## Main results

* `Cdc.out_paired`: both valids are always the same
* `Aligned.conserved`: aligned FIFOs lose no sample
* `cdc_aligned`: from power-up, strobes that find all FIFOs filled deliver the paired samples, and
  none is lost
-/

namespace OrbitIntlk

open Clocked

variable {w : ℕ}

/-! ## The eight FIFOs -/

/-- The words of a position record, in the order of `decim_pos_array`. -/
inductive Chan
  | x
  | y
  | q
  | sum
  deriving DecidableEq, Repr

/-- The word of a sample that a channel carries. -/
def Sample.word (p : Sample w) : Chan → BitVec w
  | .x => p.x
  | .y => p.y
  | .q => p.q
  | .sum => p.sum

/-- `c_CDC_REF_SIZE` -/
def cdcRefSize : ℕ := 4

/-- One `orbit_intlk_cdc_fifo`: its FIFO, the register of `q_o` and `fifo_cdc_valid`. -/
structure CdcFifo (w : ℕ) where
  fifo : AsyncFifo (BitVec w)
  q : BitVec w
  valid : Bool

/-- A `ref_clk` edge of one FIFO, after which `k` more words are visible. -/
def CdcFifo.edge (f : CdcFifo w) (rd : Bool) (k : ℕ) : CdcFifo w where
  fifo := (if rd then f.fifo.pop else f.fifo).sync k
  -- a read of an empty FIFO leaves the output register
  q := if rd then f.fifo.ready.head?.getD f.q else f.q
  -- `fifo_cdc_valid <= rd_i`, overridden while the FIFO is empty
  valid := if f.fifo.isEmpty then false else rd

/-- The FIFOs of both monitors. -/
abbrev Cdc (w : ℕ) := Bpm → Chan → CdcFifo w

/-- `decim_pos_synch_rd`: neither channel-0 FIFO is empty. -/
def Cdc.rd (s : Cdc w) : Bool := !(s .ds .x).fifo.isEmpty && !(s .us .x).fifo.isEmpty

theorem Cdc.rd_eq_true {s : Cdc w} : s.rd = true ↔ ∀ b, (s b .x).fifo.isEmpty = false := by
  simp only [Cdc.rd, Bool.and_eq_true, Bool.not_eq_true']
  constructor
  · rintro ⟨hd, hu⟩ (_ | _)
    · exact hd
    · exact hu
  · exact fun h => ⟨h .ds, h .us⟩

/-- What happens to the crossing: a write on one side, or an edge of `ref_clk` with the number of
words that become visible in each FIFO. -/
inductive CdcEvent (w : ℕ)
  | write (b : Bpm) (p : Sample w)
  | edge (k : Bpm → Chan → ℕ)

/-- One event: a write goes to the four FIFOs of its monitor, an edge reads all eight. -/
def cdcStep (s : Cdc w) : CdcEvent w → Cdc w
  | .write b p => fun b' c =>
    if b' = b then { s b c with fifo := (s b c).fifo.push cdcRefSize (p.word c) } else s b' c
  | .edge k => fun b c => (s b c).edge s.rd (k b c)

/-! ## Outputs -/

/-- The decimated outputs of `orbit_intlk_cdc`. -/
structure CdcOut (w : ℕ) where
  ds : Sample w
  us : Sample w
  dsValid : Bool
  usValid : Bool
  deriving DecidableEq, Repr

/-- The words of one monitor at the outputs. -/
def Cdc.sample (s : Cdc w) (b : Bpm) : Sample w :=
  ⟨(s b .x).q, (s b .y).q, (s b .q).q, (s b .sum).q⟩

/-- The output ports; the valids are those of channel 0. -/
def Cdc.out (s : Cdc w) : CdcOut w where
  ds := s.sample .ds
  us := s.sample .us
  dsValid := (s .ds .x).valid
  usValid := (s .us .x).valid

/-- The outputs of a run, one for each `ref_clk` cycle. -/
def cdcTrace (s : Cdc w) : List (CdcEvent w) → List (CdcOut w)
  | [] => []
  | .write b p :: es => cdcTrace (cdcStep s (.write b p)) es
  | .edge k :: es => (cdcStep s (.edge k)).out :: cdcTrace (cdcStep s (.edge k)) es

/-- The samples one monitor writes in a run. -/
def written (b : Bpm) (es : List (CdcEvent w)) : List (Sample w) :=
  es.filterMap fun
    | .write b' p => if b' = b then some p else none
    | .edge _ => none

@[simp] theorem written_write (b b' : Bpm) (p : Sample w) (es : List (CdcEvent w)) :
    written b (.write b' p :: es) = (if b' = b then [p] else []) ++ written b es := by
  by_cases hb : b' = b
  · simp [written, hb]
  · simp [written, hb]

@[simp] theorem written_edge (b : Bpm) (k : Bpm → Chan → ℕ) (es : List (CdcEvent w)) :
    written b (.edge k :: es) = written b es := rfl

/-- The sample of one monitor in a pair. -/
def Bpm.of (b : Bpm) (p : Sample w × Sample w) : Sample w :=
  match b with
  | .ds => p.1
  | .us => p.2

/-- The pairs delivered: the outputs of the cycles with `decim_ds_pos_valid_o`. -/
def deliveries (o : List (CdcOut w)) : List (Sample w × Sample w) :=
  (o.filter CdcOut.dsValid).map fun o => (o.ds, o.us)

theorem deliveries_cons (o : CdcOut w) (os : List (CdcOut w)) :
    deliveries (o :: os) = if o.dsValid then (o.ds, o.us) :: deliveries os else deliveries os := by
  by_cases h : o.dsValid = true
  · simp [deliveries, h]
  · simp [deliveries, h]

/-- **Both valids are always the same**: the strobe is up only if neither channel-0 FIFO is
empty. -/
theorem Cdc.out_paired (s : Cdc w) (k : Bpm → Chan → ℕ) :
    (cdcStep s (.edge k)).out.dsValid = s.rd ∧ (cdcStep s (.edge k)).out.usValid = s.rd := by
  simp only [cdcStep, Cdc.out, CdcFifo.edge, Cdc.rd]
  cases (s .ds .x).fifo.isEmpty <;> cases (s .us .x).fifo.isEmpty <;> simp

theorem cdcTrace_paired (s : Cdc w) (es : List (CdcEvent w)) :
    ∀ o ∈ cdcTrace s es, o.dsValid = o.usValid := by
  induction es generalizing s with
  | nil => simp [cdcTrace]
  | cons e es ih =>
    cases e with
    | write b p => exact ih _
    | edge k =>
      intro o ho
      rcases List.mem_cons.mp ho with rfl | ho
      · obtain ⟨hd, hu⟩ := s.out_paired k
        rw [hd, hu]
      · exact ih _ o ho

/-! ## Alignment -/

/-- No FIFO is written while full. -/
def WriteOk (s : Cdc w) : CdcEvent w → Prop
  | .write b _ => ∀ c, ¬ (s b c).fifo.Full cdcRefSize
  | .edge _ => True

/-- A strobe finds none of the eight FIFOs empty. -/
def StrobeOk (s : Cdc w) : CdcEvent w → Prop
  | .write _ _ => True
  | .edge _ => s.rd = true → ∀ b c, (s b c).fifo.isEmpty = false

/-- The FIFOs hold the same samples in all channels: those of `p b` for monitor `b`. -/
def Aligned (s : Cdc w) (p : Bpm → List (Sample w)) : Prop :=
  ∀ b c, (s b c).fifo.contents = (p b).map (Sample.word · c)

namespace Aligned

variable {s : Cdc w} {p : Bpm → List (Sample w)}

/-- A write adds its sample to the monitor's own list. -/
theorem write (h : Aligned s p) {b : Bpm} {x : Sample w}
    (hok : WriteOk s (.write b x)) :
    Aligned (cdcStep s (.write b x)) fun b' => if b' = b then p b ++ [x] else p b' := by
  intro b' c
  by_cases hb : b' = b
  · subst hb
    simp [cdcStep, AsyncFifo.contents_push _ (hok c), h b' c]
  · simp [cdcStep, hb, h b' c]

/-- An edge without a strobe leaves everything where it is. -/
theorem idle (h : Aligned s p) (hrd : s.rd = false) (k : Bpm → Chan → ℕ) :
    Aligned (cdcStep s (.edge k)) p := by
  intro b c
  simp [cdcStep, CdcFifo.edge, hrd, h b c]

/-- **A strobe that finds all FIFOs filled** takes the oldest sample of each monitor out of all
its channels, and shows it. -/
theorem read (h : Aligned s p) (hrd : s.rd = true) {k : Bpm → Chan → ℕ}
    (hok : StrobeOk s (.edge k)) :
    ∃ q : Bpm → List (Sample w), Aligned (cdcStep s (.edge k)) q ∧
      ∀ b, p b = (cdcStep s (.edge k)).sample b :: q b := by
  have hfull := hok hrd
  have hne : ∀ b, ∃ x xs, p b = x :: xs := fun b => by
    obtain ⟨v, -, hv⟩ := (s b .x).fifo.exists_contents_eq_cons (hfull b .x)
    rw [h b .x] at hv
    cases hp : p b with
    | nil => simp [hp] at hv
    | cons x xs => exact ⟨x, xs, rfl⟩
  have hchan : ∀ b c x xs, p b = x :: xs →
      (cdcStep s (.edge k) b c).q = x.word c ∧
        (cdcStep s (.edge k) b c).fifo.contents = xs.map (Sample.word · c) := by
    intro b c x xs hp
    obtain ⟨v, hhead, hv⟩ := (s b c).fifo.exists_contents_eq_cons (hfull b c)
    rw [h b c, hp, List.map_cons, List.cons.injEq] at hv
    simp [cdcStep, CdcFifo.edge, hrd, hhead, hv]
  refine ⟨fun b => (p b).tail, ?_, ?_⟩
  · intro b c
    obtain ⟨x, xs, hp⟩ := hne b
    simp only [(hchan b c x xs hp).2, hp, List.tail_cons]
  · intro b
    obtain ⟨x, xs, hp⟩ := hne b
    simp [Cdc.sample, (hchan b _ x xs hp).1, hp, Sample.word]

/-- **Aligned FIFOs lose no sample**: what they held and were given is what they have delivered,
followed by what they still hold. By induction on the run, with the samples in the FIFOs as the
invariant. -/
theorem conserved (h : Aligned s p) {es : List (CdcEvent w)}
    (hwrite : Along cdcStep WriteOk s es) (hstrobe : Along cdcStep StrobeOk s es) :
    ∃ r, Aligned (es.foldl cdcStep s) r ∧
      ∀ b, p b ++ written b es = (deliveries (cdcTrace s es)).map (Bpm.of b) ++ r b := by
  induction es generalizing s p with
  | nil => exact ⟨p, h, fun b => List.append_nil (p b)⟩
  | cons e es ih =>
    obtain ⟨hw, hwrite⟩ := hwrite
    obtain ⟨hs, hstrobe⟩ := hstrobe
    cases e with
    | write b x =>
      obtain ⟨r, hr, heq⟩ := ih (h.write hw) hwrite hstrobe
      refine ⟨r, hr, fun b' => ?_⟩
      rw [cdcTrace, ← heq b', written_write]
      by_cases hb : b' = b
      · subst hb
        simp
      · simp [hb, Ne.symm hb]
    | edge k =>
      rw [cdcTrace, deliveries_cons, (s.out_paired k).1]
      cases hrd : s.rd with
      | false => exact ih (h.idle hrd k) hwrite hstrobe
      | true =>
        obtain ⟨q, hq, hp⟩ := h.read hrd hs
        obtain ⟨r, hr, heq⟩ := ih hq hwrite hstrobe
        refine ⟨r, hr, fun b => ?_⟩
        rw [hp b, List.cons_append, written_edge, heq b, if_pos rfl, List.map_cons]
        cases b
        · rfl
        · rfl

end Aligned

/-- The crossing at power-up: the FIFOs are empty, the output registers hold anything. -/
def Cdc.powerUp (q : Bpm → Chan → BitVec w) : Cdc w := fun b c => ⟨AsyncFifo.nil, q b c, false⟩

/-- **The crossing keeps samples together**, in every run from power-up in which no FIFO is written
while full and every strobe finds all eight FIFOs filled: both valids are the same, the n-th cycle
with a valid carries the n-th sample of either monitor, what a monitor has written is what was
delivered of it and what its four FIFOs still hold, and an edge delivers a pair just if it finds
both channel-0 FIFOs filled. -/
theorem cdc_aligned (q : Bpm → Chan → BitVec w) (es : List (CdcEvent w))
    (hwrite : Along cdcStep WriteOk (Cdc.powerUp q) es)
    (hstrobe : Along cdcStep StrobeOk (Cdc.powerUp q) es) :
    (∀ o ∈ cdcTrace (Cdc.powerUp q) es, o.dsValid = o.usValid) ∧
      deliveries (cdcTrace (Cdc.powerUp q) es) <+: (written .ds es).zip (written .us es) ∧
      (∃ r, Aligned (es.foldl cdcStep (Cdc.powerUp q)) r ∧
        ∀ b, written b es = (deliveries (cdcTrace (Cdc.powerUp q) es)).map (Bpm.of b) ++ r b) ∧
      ∀ es₁ k es₂, es = es₁ ++ .edge k :: es₂ →
        ((cdcStep (es₁.foldl cdcStep (Cdc.powerUp q)) (.edge k)).out.dsValid = true ↔
          ∀ b, (es₁.foldl cdcStep (Cdc.powerUp q) b .x).fifo.isEmpty = false) := by
  have h : Aligned (Cdc.powerUp q) fun _ => [] := fun b c => rfl
  obtain ⟨r, hr, heq⟩ := h.conserved hwrite hstrobe
  refine ⟨cdcTrace_paired _ es, prefix_zip_of_append (heq .ds) (heq .us), ⟨r, hr, heq⟩, ?_⟩
  intro es₁ k es₂ _
  rw [(Cdc.out_paired _ k).1, Cdc.rd_eq_true]

/-! ## A slip -/

/-- One sample of each monitor, in 32 bits. -/
def slipSample : Sample 32 := ⟨0x100, 0x200, 0x300, 0x400⟩

/-- Both monitors write a sample, and every FIFO shows it after the next edge except that of the
downstream Y word, which is one edge late. The second edge is the strobe. -/
def slipEvents (late : Bpm → Chan → ℕ) : List (CdcEvent 32) :=
  [.write .ds slipSample, .write .us slipSample, .edge late, .edge fun _ _ => 1]

def lateY : Bpm → Chan → ℕ
  | .ds, .y => 0
  | _, _ => 1

/-- A write into FIFOs that hold nothing finds room. -/
theorem slipEvents_writeOk (k : Bpm → Chan → ℕ) :
    Along cdcStep WriteOk (Cdc.powerUp fun _ _ => 0) (slipEvents k) := by
  refine ⟨?_, ?_, trivial, trivial, trivial⟩
  · intro c
    cases c <;> decide
  · intro c
    cases c <;> decide

/-- **One late synchroniser slips its channel**: no FIFO is written while full, but the pair
delivered has the old Y word. -/
theorem lateY_slips :
    Along cdcStep WriteOk (Cdc.powerUp fun _ _ => 0) (slipEvents lateY) ∧
      ¬ deliveries (cdcTrace (Cdc.powerUp fun _ _ => 0) (slipEvents lateY)) <+:
        (written .ds (slipEvents lateY)).zip (written .us (slipEvents lateY)) :=
  ⟨slipEvents_writeOk lateY, by decide⟩

/-- With all synchronisers alike the pair arrives, and the FIFOs are empty again. -/
theorem slipEvents_aligned :
    deliveries (cdcTrace (Cdc.powerUp fun _ _ => 0) (slipEvents fun _ _ => 1)) =
      [(slipSample, slipSample)] := by
  obtain ⟨-, -, ⟨r, hr, heq⟩, -⟩ := cdc_aligned (fun _ _ => 0) (slipEvents fun _ _ => 1)
    (slipEvents_writeOk _) ⟨trivial, trivial, fun hrd => absurd hrd (by decide), by
      intro _ b c
      cases b <;> cases c <;> decide, trivial⟩
  have hnone : ∀ b, r b = [] := by
    intro b
    have hx := hr b .x
    rw [show ((slipEvents fun _ _ => 1).foldl cdcStep (Cdc.powerUp fun _ _ => 0) b
      .x).fifo.contents = [] by cases b <;> decide] at hx
    exact List.map_eq_nil_iff.mp hx.symm
  have hds := heq .ds
  have hus := heq .us
  rw [hnone, List.append_nil] at hds hus
  exact List.zip_of_prod hds.symm hus.symm

end OrbitIntlk
