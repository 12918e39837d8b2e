import BpmGateware.Clocked.AckSlave

/-!
# FIFOs read through a bus slave

A FIFO behind a slave: the access to its first word, the head, waits until the next record has been
taken out of the FIFO, the accesses to the other words of the record do not. To wait, the slave does
not take the request up; meanwhile a toggling register makes a pulse of one edge for the FIFO, and
the register after it says that the record is there.

With a master that keeps a stalled request, each access to the head takes one record out. So the
number of records taken out, at an edge with an acknowledge, is the number of accesses to the head
that the master has seen accepted.

## Main definitions

* `gate`: the requests that a slave looks at, where some of them wait
* `ReadPort`, `ReadPort.next`: the two registers that make the pulse
* `PortRun`: a port on its clock

## Main results

* `PortRun.pops_eq`: the pulses are the accesses to the head that were taken up
* `PortRun.pops_of_accepted`: at an acknowledge, they are those accepted
-/

namespace Clocked

variable {ρ : Type} {n : ℕ}

/-! ## Requests that wait -/

/-- The request that a slave looks at: a free slave leaves those that are not ready. -/
def gate (ready : ρ → Bool) (a : AckGen n) (req : Option ρ) : Option ρ :=
  if a.inProgress then req else req.filter ready

theorem gate_eq_some {ready : ρ → Bool} {a : AckGen n} {req : Option ρ} {r : ρ} :
    gate ready a req = some r ↔ req = some r ∧ (a.inProgress = true ∨ ready r = true) := by
  unfold gate
  by_cases ha : a.inProgress = true
  · simp [ha]
  · simp [ha, Option.filter_eq_some_iff]

section Gate

variable {lat : ρ → ℕ} {sys : ℕ → Bool} {req : ℕ → Option ρ} {a : ℕ → AckGen n}
  {ready : ℕ → ρ → Bool} (h : Slave lat sys (fun t => gate (ready t) (a t) (req t)) a)

include h

/-- A waiting request is not accepted. -/
theorem Slave.accepted_gate :
    accepted sys (fun t => gate (ready t) (a t) (req t)) a = accepted sys req a := by
  funext t
  unfold accepted
  rcases h.idle_or_due t with hi | ⟨j, -, hd⟩
  · simp [hi]
  · simp [hd, gate]

/-- A patient master is patient with the slave that makes it wait. -/
theorem Slave.patient_gate (hp : Patient sys req a)
    (hready : ∀ t, sys t = false → ready (t + 1) = ready t) :
    Patient sys (fun t => gate (ready t) (a t) (req t)) a := by
  intro t r hr hor
  obtain ⟨hreq, hgo⟩ := gate_eq_some.mp hr
  refine gate_eq_some.mpr ⟨hp t r hreq hor, ?_⟩
  by_cases hs : sys t = true
  · left
    rw [h.succ, if_pos hs]
    rcases h.idle_or_due t with hi | ⟨j, hj, hd⟩
    · beta_reduce at hr ⊢
      rw [hr, hi, AckGen.next_idle_some]
      rfl
    · cases j with
      | zero =>
        rw [hs, hd, AckGen.ack_due hj] at hor
        simp at hor
      | succ j =>
        rw [hd, AckGen.next_due_succ hj]
        rfl
  · have hs' : sys t = false := by simpa using hs
    rw [h.succ, if_neg hs, hready t hs']
    exact hgo

end Gate

/-! ## The port -/

/-- The two registers of a read port: the read request of the FIFO, and the same one edge later. -/
structure ReadPort where
  rdreq : Bool
  rdreqD0 : Bool
  deriving DecidableEq, Repr

/-- A port at rest. -/
def ReadPort.idle : ReadPort := ⟨false, false⟩

/-- One edge; the read request toggles while the head is asked for and the record is not there. -/
def ReadPort.next (p : ReadPort) (ask : Bool) : ReadPort :=
  ⟨if ask && !p.rdreqD0 then !p.rdreq else p.rdreq, p.rdreq⟩

/-- A free slave is shown a request for the head. -/
def asks (head : ρ → Bool) (a : AckGen n) (req : Option ρ) : Bool := !a.inProgress && req.any head

/-- **A port on its clock**: the slave takes a request for the head up when the record is there. -/
structure PortRun (lat : ρ → ℕ) (head : ρ → Bool) (sys : ℕ → Bool) (req : ℕ → Option ρ)
    (ready : ℕ → ρ → Bool) (a : ℕ → AckGen n) (p : ℕ → ReadPort) : Prop where
  slave : Slave lat sys (fun t => gate (ready t) (a t) (req t)) a
  ready_head : ∀ t r, head r = true → ready t r = (p t).rdreqD0
  zero : p 0 = .idle
  succ : ∀ t, p (t + 1) = if sys t then (p t).next (asks head (a t) (req t)) else p t

namespace PortRun

variable {lat : ρ → ℕ} {head : ρ → Bool} {sys : ℕ → Bool} {req : ℕ → Option ρ}
  {ready : ℕ → ρ → Bool} {a : ℕ → AckGen n} {p : ℕ → ReadPort} {r : ρ} {t u : ℕ}

/-- The requests taken up. -/
abbrev taken (sys : ℕ → Bool) (req : ℕ → Option ρ) (ready : ℕ → ρ → Bool) (a : ℕ → AckGen n) :
    ℕ → Option ρ := started sys (fun t => gate (ready t) (a t) (req t)) a

/-- The edges at which the FIFO is read. -/
def pops (sys : ℕ → Bool) (p : ℕ → ReadPort) (t : ℕ) : Bool := sys t && (p t).rdreq

/-- A request for the head is shown to a free slave, which waits for the record. -/
structure Waits (head : ρ → Bool) (req : ℕ → Option ρ) (a : ℕ → AckGen n) (t : ℕ) : Prop where
  idle : a t = .idle
  shown : ∃ r, req t = some r ∧ head r = true

variable (h : PortRun lat head sys req ready a p)

include h

/-- A free slave with a request that is not ready rests. -/
theorem idle_succ (hw : Waits head req a t) (hd : (p t).rdreqD0 = false) : a (t + 1) = .idle := by
  obtain ⟨r, hr, hh⟩ := hw.shown
  rw [h.slave.succ]
  split
  · have hgate : gate (ready t) (a t) (req t) = none := by
      rw [gate, hw.idle, hr]
      simp [AckGen.idle, h.ready_head t r hh, hd]
    rw [hgate, hw.idle, AckGen.next_idle_none]
  · exact hw.idle

/-- A waiting master goes on showing the request. -/
theorem waits_succ (hp : Patient sys req a) (hw : Waits head req a t)
    (hd : (p t).rdreqD0 = false) : Waits head req a (t + 1) := by
  obtain ⟨r, hr, hh⟩ := hw.shown
  exact ⟨h.idle_succ hw hd, r, hp t r hr (.inr (by rw [hw.idle, AckGen.ack_idle])), hh⟩

/-- **The states of a port**: at rest, or with the pulse or the record there while the master
waits. -/
theorem port_cases (hp : Patient sys req a) (t : ℕ) :
    p t = .idle ∨ Waits head req a t ∧ (p t = ⟨true, false⟩ ∨ p t = ⟨false, true⟩) := by
  induction t with
  | zero => exact .inl h.zero
  | succ t ih =>
    rw [h.succ]
    by_cases hs : sys t = true
    · rw [if_pos hs]
      rcases ih with hi | ⟨hw, hpulse | hthere⟩
      · by_cases hask : asks head (a t) (req t) = true
        · right
          obtain ⟨hfree, hany⟩ : (a t).inProgress = false ∧ (req t).any head = true := by
            simpa [asks] using hask
          have hidle : a t = .idle := by
            rcases h.slave.idle_or_due t with hidle | ⟨j, -, hd⟩
            · exact hidle
            · rw [hd] at hfree
              cases hfree
          have hw : Waits head req a t := ⟨hidle, (Option.any_eq_true head (req t)).mp hany⟩
          exact ⟨h.waits_succ hp hw (by rw [hi]; rfl), .inl (by rw [hi, hask]; rfl)⟩
        · left
          rw [hi, Bool.eq_false_iff.mpr hask]
          rfl
      · right
        have hask : asks head (a t) (req t) = true := by
          obtain ⟨r, hr, hh⟩ := hw.shown
          simp [asks, hw.idle, AckGen.idle, hr, hh]
        exact ⟨h.waits_succ hp hw (by rw [hpulse]), .inr (by rw [hpulse, hask]; rfl)⟩
      · left
        rw [hthere]
        cases asks head (a t) (req t) <;> rfl
    · rw [if_neg hs]
      rcases ih with hi | ⟨hw, hstate⟩
      · exact .inl hi
      · right
        obtain ⟨r, hr, hh⟩ := hw.shown
        have hs' : sys t = false := by simpa using hs
        refine ⟨⟨?_, r, hp t r hr (.inl hs'), hh⟩, hstate⟩
        rw [h.slave.succ, if_neg hs]
        exact hw.idle

/-- The FIFO is not read from the edge that takes a request up to its acknowledge. -/
theorem no_pop (hp : Patient sys req a) (hu : taken sys req ready a u = some r) {y : ℕ}
    (huy : u ≤ y) (hc : (strobes sys (u + 1) y).card ≤ lat r) : pops sys p y = false := by
  rcases h.port_cases hp y with hi | ⟨hw, hpulse | hthere⟩
  · simp [pops, hi, ReadPort.idle]
  · exfalso
    rcases Nat.lt_or_eq_of_le huy with hlt | rfl
    · have hd := h.slave.busy hu hlt hc
      exact AckGen.due_ne_idle (hd.symm.trans hw.idle)
    · -- the request at the edge of the pulse waits
      obtain ⟨-, -, hgate⟩ := h.slave.started_eq_some.mp hu
      obtain ⟨hreq, hgo⟩ := gate_eq_some.mp hgate
      obtain ⟨q, hq, hh⟩ := hw.shown
      cases hreq.symm.trans hq
      rw [hw.idle, h.ready_head u r hh, hpulse] at hgo
      simp [AckGen.idle] at hgo
  · simp [pops, hthere]

/-- **Each pulse belongs to an access to the head**: the FIFO was read once for each one that was
taken up, and once for the one that waits with the record there. -/
theorem pops_eq (hp : Patient sys req a) (t : ℕ) :
    (strobes (pops sys p) 0 t).card = (history (taken sys req ready a) t).countP head +
      if (p t).rdreqD0 then 1 else 0 := by
  induction t with
  | zero => simp [card_strobes_self, history, h.zero, ReadPort.idle]
  | succ t ih =>
    rw [card_strobes_succ (Nat.zero_le t), history_succ, List.countP_append, ih, h.succ, pops]
    -- a request for the head is taken up where the record is there
    have hno : (p t).rdreqD0 = false → (taken sys req ready a t).toList.countP head = 0 := by
      intro hd
      cases ht : taken sys req ready a t with
      | none => rfl
      | some r =>
        obtain ⟨-, hi, hgate⟩ := h.slave.started_eq_some.mp ht
        obtain ⟨-, hgo⟩ := gate_eq_some.mp hgate
        have hh : ¬ head r = true := by
          intro hh
          rw [hi, h.ready_head t r hh, hd] at hgo
          simp [AckGen.idle] at hgo
        simp [hh]
    by_cases hs : sys t = true
    · rw [if_pos hs, hs]
      rcases h.port_cases hp t with hi | ⟨hw, hpulse | hthere⟩
      · rw [hno (by rw [hi]; rfl), hi]
        simp [ReadPort.next, ReadPort.idle]
      · rw [hno (by rw [hpulse]), hpulse]
        simp [ReadPort.next]
      · obtain ⟨r, hr, hh⟩ := hw.shown
        have htaken : taken sys req ready a t = some r := by
          refine h.slave.started_eq_some.mpr ⟨hs, hw.idle, gate_eq_some.mpr ⟨hr, .inr ?_⟩⟩
          rw [h.ready_head t r hh, hthere]
        rw [htaken, hthere]
        simp [ReadPort.next, hh]
    · have hnone : taken sys req ready a t = none := by simp [taken, started, hs]
      rw [if_neg hs, hnone]
      simp [hs]

/-- **At an acknowledge, the FIFO was read once for each access to the head that was accepted**. -/
theorem pops_of_accepted (hp : Patient sys req a)
    (hready : ∀ t, sys t = false → ready (t + 1) = ready t)
    (ht : accepted sys req a t = some r) :
    (strobes (pops sys p) 0 t).card = (history (accepted sys req a) (t + 1)).countP head := by
  have hgate := h.slave.patient_gate hp hready
  rw [← h.slave.accepted_gate] at ht ⊢
  obtain ⟨-, u, hu, hut, hc⟩ := (h.slave.accepted_iff hgate).mp ht
  have hbusy := h.slave.busy hu hut hc.le
  have hidle : p t = .idle := by
    rcases h.port_cases hp t with hi | ⟨hw, -⟩
    · exact hi
    · exact absurd (hbusy.symm.trans hw.idle) AckGen.due_ne_idle
  have hstarted := h.slave.history_started_of_accepted hgate ht
  rw [h.pops_eq hp, hidle, taken, hstarted]
  rfl

end PortRun

end Clocked
