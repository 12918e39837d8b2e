import BpmGateware.Fofb.Sender

/-!
# The sessions of the FOFB sender

While the reset of the FIFOs is high, what a chain has written since the session began is what was
presented of it, followed by what its FIFO holds. So a session presents the two streams paired one
by one from their first samples on, and loses nothing between the FIFOs and the output registers.
Which acquisition periods are paired is another matter: it is decided by how many samples each
chain had written when the trigger was accepted, and stays so for the whole session.

## Main definitions

* `Inv`: the invariant that ties the registers, the FIFOs and the log together
* `NotFull`, `Balanced`: no FIFO is written while full; the chains are less than a period apart

## Main results

* `inv_step`: every event keeps the invariant
* `session_zip`: a session presents a prefix of the pairing of its samples
* `session_periods`: the periods of the pairs of a session
-/

namespace Fofb

open Clocked

variable {b : ℕ}

/-- No FIFO is written while full. -/
def NotFull (st : Sender b × Log b) : Event b → Prop
  | .write d _ => ¬ (st.1.fifo d).Full fifoSize
  | .edge _ => True

instance (st : Sender b × Log b) (e : Event b) : Decidable (NotFull st e) :=
  match e with
  | .write _ _ => inferInstanceAs (Decidable (¬ _))
  | .edge _ => inferInstanceAs (Decidable True)

/-! ## What an edge does to the registers -/

theorem fsm_disabled {s : Sender b} (hs : s.state ≠ .sendBpmData) (hen : s.enableBpmData = false)
    (hq : s.dataValid = false) (i : Edge b) :
    (s.fsm i).dataValid = false ∧
      ((s.fsm i).enableBpmData = true ↔ (s.fsm i).state = .sendBpmData) := by
  cases hst : s.state with
  | idle => cases hr : s.rstn <;> cases hc : i.ccEnable <;> simp [Sender.fsm, hr, hst, hc, hen]
  | waitTrigger =>
    cases hr : s.rstn <;> cases hc : i.ccEnable <;> cases ht : i.trig <;>
      simp [Sender.fsm, hr, hst, hc, ht, hen, hq]
  | sendBpmData => exact absurd hst hs

/-- A reset or a disabled controller ends the session. -/
theorem fsm_ends {s : Sender b} (hs : s.state = .sendBpmData) {i : Edge b}
    (h : s.rstn = false ∨ i.ccEnable = false) :
    (s.fsm i).dataValid = false ∧ (s.fsm i).enableBpmData = false ∧
      (s.fsm i).state = .idle := by
  cases hr : s.rstn with
  | false => simp [Sender.fsm, hr]
  | true =>
    have hc : i.ccEnable = false := by simpa [hr] using h
    simp [Sender.fsm, hr, hs, hc]

/-- Otherwise the words at the FIFOs go to the output registers, valid if both are there. -/
theorem fsm_sends {s : Sender b} (hs : s.state = .sendBpmData) {i : Edge b}
    (hr : s.rstn = true) (hc : i.ccEnable = true) :
    (s.fsm i).dataValid = s.fifoRden ∧ (s.fsm i).enableBpmData = s.enableBpmData ∧
      (s.fsm i).state = .sendBpmData ∧ (s.fsm i).presents = (s.out i .dsp1, s.out i .dsp2) := by
  simp [Sender.fsm, hr, hs, hc, Sender.presents]

/-! ## The invariant -/

/-- The position of one chain in a pair. -/
def side (d : Dsp) (p : Pos b × Pos b) : Pos b :=
  match d with
  | .dsp1 => p.1
  | .dsp2 => p.2

/-- What was presented is what came before the rest of each chain's samples. -/
def SplitAt (h : Log b) (rest : Dsp → List (Pos b)) : Prop :=
  ∀ d, h.written d = h.presented.map (side d) ++ rest d

theorem SplitAt.pairing {h : Log b} {rest : Dsp → List (Pos b)} (hs : SplitAt h rest) :
    h.presented <+: (h.written .dsp1).zip (h.written .dsp2) :=
  prefix_zip_of_append (hs .dsp1) (hs .dsp2)

/-- **The invariant of the sender**. The FIFOs are empty while their reset is low, and while it is
high the samples of a session are those presented and those still in the FIFO, in this order. -/
structure Inv (s : Sender b) (h : Log b) : Prop where
  send : s.enableBpmData = true ↔ s.state = .sendBpmData
  quiet : s.enableBpmData = false → s.dataValid = false
  closed : s.posRstn = false → ∀ d, s.fifo d = AsyncFifo.nil
  start_le : ∀ d, h.start d ≤ (h.all d).length
  pairing : s.enableBpmData = true → h.presented <+: (h.written .dsp1).zip (h.written .dsp2)
  conserve : s.posRstn = true → SplitAt h fun d => (s.fifo d).contents.map unpack

theorem inv_powerUp (r : Bool) : Inv (Sender.powerUp r : Sender b) Log.empty where
  send := by simp [Sender.powerUp]
  quiet _ := rfl
  closed _ _ := rfl
  start_le _ := le_rfl
  pairing h := by simp [Sender.powerUp] at h
  conserve h := by simp [Sender.powerUp, Sender.posRstn] at h

section Step

variable {s : Sender b} {h : Log b}

theorem written_write (hi : Inv s h) (d d' : Dsp) (p : Pos b) :
    (h.write d p).written d' = if d' = d then h.written d ++ [p] else h.written d' := by
  by_cases hd : d' = d
  · subst hd
    simp [Log.written, Log.write, List.drop_append_of_le_length (hi.start_le d')]
  · simp [Log.written, Log.write, hd]

/-- A write goes to the end of its FIFO; while the reset is low it is ignored, and the pairing of
the session stays behind what is written. -/
theorem inv_write (hi : Inv s h) {d : Dsp} {p : Pos b} (hf : ¬ (s.fifo d).Full fifoSize) :
    Inv (senderStep s (.write d p)) (h.write d p) where
  send := hi.send
  quiet := hi.quiet
  closed hr d' := by
    have hr' : s.posRstn = false := hr
    have hnil := hi.closed hr'
    by_cases hd : d' = d
    · subst hd
      simp [senderStep, Sender.writeFifo, hr', hnil]
    · simp [senderStep, hd, hnil]
  start_le d' := by
    by_cases hd : d' = d
    · subst hd
      simpa [Log.write] using Nat.le_succ_of_le (hi.start_le d')
    · simpa [Log.write, hd] using hi.start_le d'
  pairing hen := by
    have hgrow : ∀ d', h.written d' <+: (h.write d p).written d' := by
      intro d'
      rw [written_write hi]
      by_cases hd : d' = d
      · subst hd
        simp
      · simp [hd]
    exact (hi.pairing hen).trans (zip_prefix_zip (hgrow .dsp1) (hgrow .dsp2))
  conserve hr d' := by
    have hr' : s.posRstn = true := hr
    rw [written_write hi]
    by_cases hd : d' = d
    · subst hd
      simp [senderStep, Sender.writeFifo, hr', AsyncFifo.contents_push _ hf, hi.conserve hr' d',
        Log.write]
    · simp [senderStep, hd, hi.conserve hr' d', Log.write]

/-- A FIFO after an edge, by the reset of the cycle that follows. -/
theorem fifo_edge (s : Sender b) (i : Edge b) (d : Dsp) :
    (senderStep s (.edge i)).fifo d =
      Sender.readFifo (senderStep s (.edge i)).posRstn s.fifoRden (i.vis d) (s.fifo d) :=
  rfl

theorem fifo_edge_closed {i : Edge b} (hr : (senderStep s (.edge i)).posRstn = false) (d : Dsp) :
    (senderStep s (.edge i)).fifo d = AsyncFifo.nil := by
  simp [fifo_edge, hr, Sender.readFifo]

/-- What a FIFO holds after an edge out of reset: the rest, if both were read. -/
theorem contents_edge {i : Edge b} (hr : (senderStep s (.edge i)).posRstn = true) (d : Dsp) :
    ((senderStep s (.edge i)).fifo d).contents =
      if s.fifoRden then (s.fifo d).pop.contents else (s.fifo d).contents := by
  rw [fifo_edge, hr]
  cases s.fifoRden <;> simp [Sender.readFifo]

/-- An edge that finds no session begins one, or none; nothing is presented yet. -/
theorem inv_edge_disabled (hi : Inv s h) (hen : s.enableBpmData = false) (i : Edge b) :
    Inv (senderStep s (.edge i)) (h.begin.present (senderStep s (.edge i))) := by
  have hs : s.state ≠ .sendBpmData := fun hs => by simp [hi.send.mpr hs] at hen
  obtain ⟨hv, hsend⟩ := fsm_disabled hs hen (hi.quiet hen) i
  -- the FIFOs are in reset, so nothing is read and the new session begins with them empty
  have hnil := hi.closed (by simp [Sender.posRstn, hen])
  have hrden : s.fifoRden = false := by
    simp [Sender.fifoRden, hnil, AsyncFifo.isEmpty, AsyncFifo.nil]
  have hlog : h.begin.present (senderStep s (.edge i)) = h.begin := by
    simp [Log.present, senderStep, hv]
  rw [hlog]
  exact
    { send := hsend
      quiet := fun _ => hv
      closed := fun hr => fifo_edge_closed hr
      start_le := fun _ => le_rfl
      pairing := fun _ => by simp [Log.begin]
      conserve := fun hr d => by simp [contents_edge hr, hrden, hnil, Log.written, Log.begin] }

/-- An edge that ends the session leaves the FIFOs empty. -/
theorem inv_edge_ends (hi : Inv s h) (hs : s.state = .sendBpmData) {i : Edge b}
    (hend : s.rstn = false ∨ i.ccEnable = false) :
    Inv (senderStep s (.edge i)) (h.present (senderStep s (.edge i))) := by
  obtain ⟨hv, hen, hst⟩ := fsm_ends hs hend
  have hlog : h.present (senderStep s (.edge i)) = h := by simp [Log.present, senderStep, hv]
  have hr : (senderStep s (.edge i)).posRstn = false := by simp [Sender.posRstn, senderStep, hen]
  rw [hlog]
  exact
    { send := by simp [senderStep, hen, hst]
      quiet := fun _ => hv
      closed := fun _ => fifo_edge_closed hr
      start_le := hi.start_le
      pairing := fun hen' => by simp [senderStep, hen] at hen'
      conserve := fun hr' => by simp [hr] at hr' }

/-- An edge that finds a word in both FIFOs presents the two. -/
theorem present_edge (hs : s.state = .sendBpmData) (hr : s.rstn = true) {i : Edge b}
    (hc : i.ccEnable = true) (hrden : s.fifoRden = true) :
    h.present (senderStep s (.edge i)) =
      { h with presented := h.presented ++ [(s.out i .dsp1, s.out i .dsp2)] } := by
  obtain ⟨hv, -, -, hp⟩ := fsm_sends hs hr hc
  rw [← hp]
  simp [Log.present, senderStep, hv, hrden, Sender.presents]

/-- What it presents of a chain is the oldest word of its FIFO. -/
theorem contents_of_rden (hrden : s.fifoRden = true) (i : Edge b) (d : Dsp) :
    (s.fifo d).contents.map unpack =
      side d (s.out i .dsp1, s.out i .dsp2) :: (s.fifo d).pop.contents.map unpack := by
  have hne : (s.fifo d).isEmpty = false := by
    simp only [Sender.fifoRden, Bool.and_eq_true, Bool.not_eq_true'] at hrden
    cases d
    · exact hrden.1
    · exact hrden.2
  obtain ⟨v, hhead, hcont⟩ := (s.fifo d).exists_contents_eq_cons hne
  rw [hcont, List.map_cons]
  cases d <;> simp [side, Sender.out, hhead]

/-- **An edge within a session**: if both FIFOs have a word, these words are presented and leave
their FIFOs; if not, nothing is presented and nothing leaves. -/
theorem splitAt_edge (hi : Inv s h) (hs : s.state = .sendBpmData) (hr : s.rstn = true)
    {i : Edge b} (hc : i.ccEnable = true) :
    SplitAt (h.present (senderStep s (.edge i))) fun d =>
      (if s.fifoRden then (s.fifo d).pop.contents else (s.fifo d).contents).map unpack := by
  have hsplit := hi.conserve (by simp [Sender.posRstn, hr, hi.send.mpr hs])
  cases hrden : s.fifoRden with
  | false =>
    have hlog : h.present (senderStep s (.edge i)) = h := by
      simp [Log.present, senderStep, (fsm_sends hs hr hc).1, hrden]
    rw [hlog]
    exact hsplit
  | true =>
    intro d
    have hd := hsplit d
    beta_reduce at hd
    rw [contents_of_rden hrden i d] at hd
    rw [present_edge hs hr hc hrden]
    simpa [Log.written] using hd

theorem inv_edge_sends (hi : Inv s h) (hs : s.state = .sendBpmData) (hr : s.rstn = true)
    {i : Edge b} (hc : i.ccEnable = true) :
    Inv (senderStep s (.edge i)) (h.present (senderStep s (.edge i))) := by
  obtain ⟨hv, hen, hst, -⟩ := fsm_sends hs hr hc
  have hsplit := splitAt_edge hi hs hr hc
  have hen' : (senderStep s (.edge i)).enableBpmData = true := by
    simpa [senderStep, hen] using hi.send.mpr hs
  have hstart : ∀ d, (h.present (senderStep s (.edge i))).start d ≤
      ((h.present (senderStep s (.edge i))).all d).length := by
    intro d
    have := hi.start_le d
    simp only [Log.present]
    split <;> exact this
  exact
    { send := iff_of_true hen' (by simpa [senderStep] using hst)
      quiet := fun h => by simp [hen'] at h
      closed := fun hr' => fifo_edge_closed hr'
      start_le := hstart
      pairing := fun _ => hsplit.pairing
      conserve := fun hr' d => by simp only [hsplit d, contents_edge hr'] }

/-- **Every event keeps the invariant**. -/
theorem inv_step (hi : Inv s h) {e : Event b} (hf : NotFull (s, h) e) :
    Inv (logStep (s, h) e).1 (logStep (s, h) e).2 := by
  cases e with
  | write d p => exact inv_write hi hf
  | edge i =>
    simp only [logStep]
    cases hen : s.enableBpmData with
    | false => exact inv_edge_disabled hi hen i
    | true =>
      have hs := hi.send.mp hen
      rw [if_pos rfl]
      cases hr : s.rstn with
      | false => exact inv_edge_ends hi hs (Or.inl hr)
      | true =>
        cases hc : i.ccEnable with
        | false => exact inv_edge_ends hi hs (Or.inr hc)
        | true => exact inv_edge_sends hi hs hr hc

end Step

/-! ## Sessions -/

/-- The sender and its log after a list of events from power-up. -/
def observe (r : Bool) (es : List (Event b)) : Sender b × Log b :=
  es.foldl logStep (Sender.powerUp r, Log.empty)

theorem inv_observe (r : Bool) {es : List (Event b)}
    (hf : Along logStep NotFull (Sender.powerUp r, Log.empty) es) :
    Inv (observe r es).1 (observe r es).2 :=
  Along.foldl_induction (I := fun st : Sender b × Log b => Inv st.1 st.2)
    (fun _ _ hi hok => inv_step hi hok) hf (inv_powerUp r)

theorem observe_edge {r : Bool} {es : List (Event b)} (hen : (observe r es).1.enableBpmData = true)
    (i : Edge b) : (observe r (es ++ [.edge i])).2 =
      (observe r es).2.present (senderStep (observe r es).1 (.edge i)) := by
  have hobs : observe r (es ++ [.edge i]) = logStep (observe r es) (.edge i) := by
    simp [observe]
  rw [hobs]
  simp only [logStep]
  rw [if_pos hen]

/-- **A session is the lossless pairing of its two streams**: in every run in which no FIFO is
written while full, what a session has presented is a prefix of the pairing of the samples written
in it; while the FIFOs are out of reset, each chain's samples are those presented, in order,
followed by those in its FIFO, so that none is lost and none is presented twice; and the next edge
with the controller enabled presents the oldest of both chains, if both show one. -/
theorem session_zip (r : Bool) (es : List (Event b))
    (hf : Along logStep NotFull (Sender.powerUp r, Log.empty) es)
    (hen : (observe r es).1.enableBpmData = true) :
    (observe r es).2.presented <+:
        ((observe r es).2.written .dsp1).zip ((observe r es).2.written .dsp2) ∧
      ((observe r es).1.rstn = true → ∀ d, (observe r es).2.written d =
        (observe r es).2.presented.map (side d) ++
          ((observe r es).1.fifo d).contents.map unpack) ∧
      ∀ i : Edge b, (observe r es).1.rstn = true → i.ccEnable = true →
        (∀ d, ((observe r es).1.fifo d).isEmpty = false) →
        ∃ p, (observe r (es ++ [.edge i])).2.presented = (observe r es).2.presented ++ [p] ∧
          ∀ d, (((observe r es).1.fifo d).contents.map unpack).head? = some (side d p) := by
  have hi := inv_observe r hf
  refine ⟨hi.pairing hen, fun hr => hi.conserve ?_, ?_⟩
  · rw [Sender.posRstn, hr, hen]
    rfl
  · intro i hr hc hne
    have hrden : (observe r es).1.fifoRden = true := by
      simp [Sender.fifoRden, hne]
    refine ⟨((observe r es).1.out i .dsp1, (observe r es).1.out i .dsp2), ?_, fun d => ?_⟩
    · rw [observe_edge hen, present_edge (hi.send.mp hen) hr hc hrden]
    · rw [contents_of_rden hrden i d, List.head?_cons]

/-! ## Periods -/

/-- Each chain writes one sample for each period, less than a period apart: neither is ever more
than one sample ahead. -/
def Balanced (st : Sender b × Log b) (_ : Event b) : Prop :=
  ∀ d d', (st.2.all d).length ≤ (st.2.all d').length + 1

/-- The two samples of each pair presented are of one period: period `k` of a chain is its `k`-th
sample. -/
def SamePeriods (h : Log b) : Prop :=
  ∀ p ∈ h.presented, ∃ k : ℕ, ∀ d, (h.all d)[k]? = some (side d p)

/-- Neither chain was more than one sample ahead when the session began. -/
def StartBalanced (h : Log b) : Prop := ∀ d d', h.start d ≤ h.start d' + 1

theorem startBalanced_step (st : Sender b × Log b) (e : Event b) (h : StartBalanced st.2)
    (hb : Balanced st e) : StartBalanced (logStep st e).2 := by
  intro d d'
  cases e with
  | write d₁ p => exact h d d'
  | edge i =>
    simp only [logStep, Log.present]
    cases st.1.enableBpmData <;> cases (senderStep st.1 (.edge i)).dataValid
    · exact hb d d'
    · exact hb d d'
    · exact h d d'
    · exact h d d'

/-- The pairs of a session, by their place in the streams of both chains. -/
theorem getElem_of_pairing {h : Log b}
    (hp : h.presented <+: (h.written .dsp1).zip (h.written .dsp2)) {n : ℕ} {p : Pos b × Pos b}
    (hn : h.presented[n]? = some p) (d : Dsp) : (h.all d)[h.start d + n]? = some (side d p) := by
  obtain ⟨rest, hrest⟩ := hp
  have hlt : n < h.presented.length := (List.getElem?_eq_some_iff.mp hn).1
  have hz : ((h.written .dsp1).zip (h.written .dsp2))[n]? = some p := by
    rw [← hrest, List.getElem?_append_left hlt, hn]
  obtain ⟨h₁, h₂⟩ := List.getElem?_zip_eq_some.mp hz
  simp only [Log.written, List.getElem?_drop] at h₁ h₂
  cases d
  · exact h₁
  · exact h₂

/-- **The periods of a session**. When the chains are less than a period apart, the n-th pair of a
session has chain 1 of period `start dsp1 + n` and chain 2 of period `start dsp2 + n`, where
`start` counts the samples before the session and differs by at most one. So both are of the same
period if the session did not begin between the two samples of one period. -/
theorem session_periods (r : Bool) (es : List (Event b))
    (hf : Along logStep NotFull (Sender.powerUp r, Log.empty) es)
    (hb : Along logStep Balanced (Sender.powerUp r, Log.empty) es)
    (hen : (observe r es).1.enableBpmData = true) :
    StartBalanced (observe r es).2 ∧
      (∀ n p, (observe r es).2.presented[n]? = some p → ∀ d,
        ((observe r es).2.all d)[(observe r es).2.start d + n]? = some (side d p)) ∧
      ((observe r es).2.start .dsp1 = (observe r es).2.start .dsp2 →
        SamePeriods (observe r es).2) := by
  have hp := (inv_observe r hf).pairing hen
  have hstart : StartBalanced (observe r es).2 :=
    Along.foldl_induction (I := fun st : Sender b × Log b => StartBalanced st.2)
      startBalanced_step hb fun _ _ => Nat.le_succ _
  -- a pair is some n-th pair, of the periods `start d + n`, which are the same for both chains
  refine ⟨hstart, fun n p hn => getElem_of_pairing hp hn, ?_⟩
  intro hsame p hmem
  obtain ⟨n, hn⟩ := List.mem_iff_getElem?.mp hmem
  refine ⟨(observe r es).2.start .dsp1 + n, ?_⟩
  intro d
  have := getElem_of_pairing hp hn d
  cases d
  · exact this
  · rwa [hsame]

/-! ## Example sessions -/

/-- An edge with the reset high at which everything written becomes visible. -/
def seenEdge (ccEnable trig : Bool) : Edge 32 := ⟨ccEnable, trig, true, fun _ => 8, fun _ => 0⟩

/-- The position of period `k`, the same for both chains. -/
def periodPos (k : ℕ) : Pos 32 := ⟨BitVec.ofNat 32 k, BitVec.ofNat 32 k⟩

/-- A session that begins before or after the first sample of chain 1: enable, trigger, the
samples of periods 0 and 1, and two edges that read. -/
def twoPeriods (late : Bool) : List (Event 32) :=
  [.edge (seenEdge true false)] ++
  (if late then [.write .dsp1 (periodPos 0), .edge (seenEdge true true)]
    else [.edge (seenEdge true true), .write .dsp1 (periodPos 0)]) ++
  [.write .dsp2 (periodPos 0), .write .dsp1 (periodPos 1), .edge (seenEdge true false),
    .edge (seenEdge true false)]

theorem twoPeriods_notFull (late : Bool) :
    Along logStep NotFull (Sender.powerUp true, Log.empty) (twoPeriods late) := by
  cases late
  · exact ⟨trivial, trivial, by decide, by decide, by decide, trivial, trivial, trivial⟩
  · exact ⟨trivial, by decide, trivial, by decide, by decide, trivial, trivial, trivial⟩

theorem twoPeriods_balanced (late : Bool) :
    Along logStep Balanced (Sender.powerUp true, Log.empty) (twoPeriods late) := by
  cases late <;>
    refine ⟨?_, ?_, ?_, ?_, ?_, ?_, ?_, trivial⟩ <;> intro d d' <;> cases d <;> cases d' <;> decide

/-- The first pair of a session. -/
theorem twoPeriods_zip :
    (observe true (twoPeriods false)).2.presented = [(periodPos 0, periodPos 0)] := by
  obtain ⟨-, hkeep, -⟩ := session_zip true (twoPeriods false) (twoPeriods_notFull false) (by decide)
  have h₁ := hkeep (by decide) .dsp1
  have h₂ := hkeep (by decide) .dsp2
  have hleft : ((observe true (twoPeriods false)).1.fifo .dsp1).contents.map unpack =
      [periodPos 1] := by decide
  have hnone : ((observe true (twoPeriods false)).1.fifo .dsp2).contents.map unpack = [] := by
    decide
  rw [show (observe true (twoPeriods false)).2.written .dsp1 = [periodPos 0] ++ [periodPos 1] by
    decide, hleft] at h₁
  rw [show (observe true (twoPeriods false)).2.written .dsp2 = [periodPos 0] by decide, hnone,
    List.append_nil] at h₂
  exact List.zip_of_prod (List.append_cancel_right h₁).symm h₂.symm

/-- A trigger accepted before both samples of a period pairs the same periods. -/
theorem twoPeriods_same : SamePeriods (observe true (twoPeriods false)).2 :=
  (session_periods true (twoPeriods false) (twoPeriods_notFull false) (twoPeriods_balanced false)
    (by decide)).2.2 (by decide)

/-- **A trigger accepted between the two samples of a period** pairs period 1 of chain 1 with period
0 of chain 2. -/
theorem twoPeriods_apart :
    Along logStep NotFull (Sender.powerUp true, Log.empty) (twoPeriods true) ∧
      Along logStep Balanced (Sender.powerUp true, Log.empty) (twoPeriods true) ∧
      (observe true (twoPeriods true)).1.enableBpmData = true ∧
      (observe true (twoPeriods true)).2.presented = [(periodPos 1, periodPos 0)] ∧
      ¬ SamePeriods (observe true (twoPeriods true)).2 := by
  have hp : (observe true (twoPeriods true)).2.presented = [(periodPos 1, periodPos 0)] := by decide
  have h₁ : (observe true (twoPeriods true)).2.all .dsp1 = [periodPos 0, periodPos 1] := by decide
  have h₂ : (observe true (twoPeriods true)).2.all .dsp2 = [periodPos 0] := by decide
  refine ⟨twoPeriods_notFull true, twoPeriods_balanced true, by decide, hp, ?_⟩
  intro h
  obtain ⟨k, hk⟩ := h (periodPos 1, periodPos 0) (by simp [hp])
  have hk₁ := hk .dsp1
  have hk₂ := hk .dsp2
  rw [h₁] at hk₁
  rw [h₂] at hk₂
  -- chain 2 has only its period 0, which is not the period of chain 1's sample
  match k with
  | 0 => exact absurd hk₁ (by decide)
  | k + 1 => simp at hk₂

end Fofb
