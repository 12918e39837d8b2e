import BpmGateware.PositionCalc.Monit

/-!
# The monitoring FIFOs

The second way to the monitoring data: every record goes into a FIFO of the bank, and software reads
the status of the FIFO, then its four words. The access to the first word takes the next record out;
the other three read words of the same record.

## Main definitions

* `recordNumber`: how many records have left a FIFO
* `headsDone`: how many accesses to its first word the master has seen accepted
* `filed`: the records that go into a FIFO

## Main results

* `fifo_words_of_one_record`: the words that software reads, by the number of the record
* `fifo_one_record_each`: each access to the first word takes one record out, if there is one
-/

namespace PositionCalc

open Clocked

variable {w : ℕ} {F : RecordFifo}

section Runs

variable (z : PowerUp w F) (inp : ℕ → MonitIn w) (rt : Rate) (kd : Kind)

/-- `pos_calc_ampfifo_monit_INST` or one of its siblings, in a run. -/
abbrev fifoOf (t : ℕ) : F.State := ((monitRun z inp t).path rt kd).fifo

/-- The edges at which a FIFO is read. -/
abbrev fifoRead : ℕ → Bool :=
  PortRun.pops (fun t => (inp t).sys) fun t => (monitRun z inp t).regs.port rt kd

/-- The record that goes into a FIFO at a tick. -/
abbrev fifoPush (t : ℕ) : Option (Word → BitVec 32) :=
  ((monitRun z inp t).path rt kd).push (inp t).sys

/-- The number of records that have left a FIFO, which is the number of the one at its output. -/
def recordNumber (t : ℕ) : ℕ := SyncFifo.count (fifoOf z inp rt kd) (fifoRead z inp rt kd) t

/-- The number of accesses to the first word of a FIFO that were accepted up to tick `t`. -/
def headsDone (t : ℕ) : ℕ := (history (accessDone z inp) (t + 1)).countP (isHead rt kd)

/-- The records that go into a FIFO, by their source. -/
def filed (src : ℕ → ℕ) (t : ℕ) : Option ℕ := (fifoPush z inp rt kd t).map fun _ => src t

variable {z inp rt kd} {t u : ℕ} {r : Access}

/-! ## What goes into a FIFO -/

/-- A record at the output of the first FIFO was read at the last edge. -/
theorem exists_read_of_valid (hv : ((monitRun z inp t).path rt kd).cdc.valid = true) :
    ∃ v, latest (fun t => (inp t).sys) t = some v ∧
      ¬ ((monitRun z inp v).path rt kd).cdc.fifo.isEmpty = true := by
  have hvalid := eq_sampled (r := fun t => ((monitRun z inp t).path rt kd).cdc.valid)
    (v := fun t => (inp t).sys)
    (d := fun t => !((monitRun z inp t).path rt kd).cdc.fifo.isEmpty) (z := false) rfl
    (fun t => by
      rw [monitRun_path_succ, Path.tick]
      by_cases hs : (inp t).sys = true
      · by_cases he : ((monitRun z inp t).path rt kd).cdc.fifo.isEmpty = true
        · simp [hs, FifoCrossing.tick_of_empty he, he]
        · simp [hs, FifoCrossing.tick_of_not_empty he, he]
      · simp [hs, FifoCrossing.tick]) t
  beta_reduce at hvalid
  rw [hvalid] at hv
  cases hl : latest (fun t => (inp t).sys) t with
  | none => simp [sampled_of_none hl] at hv
  | some v =>
    rw [sampled_of_latest hl] at hv
    exact ⟨v, rfl, by simpa using hv⟩

theorem push_isSome (h : (fifoPush z inp rt kd t).isSome = true) :
    (inp t).sys = true ∧ ((monitRun z inp t).path rt kd).cdc.valid = true := by
  unfold fifoPush Path.push at h
  split at h
  next hif =>
    rw [Bool.and_eq_true, Bool.and_eq_true] at hif
    exact hif.1
  next => cases h

section Filed

variable {src : ℕ → ℕ} (hmono : Monotone src)
  (hlater : ∀ t, (inp t).sys = true →
    ¬ ((monitRun z inp t).path rt kd).cdc.fifo.isEmpty = true → src t < src (t + 1))

theorem mem_filed {x : ℕ} (hx : x ∈ history (filed z inp rt kd src) t) :
    ∃ y < t, (fifoPush z inp rt kd y).isSome = true ∧ x = src y := by
  induction t with
  | zero => cases hx
  | succ t ih =>
    rw [history_succ] at hx
    rcases List.mem_append.mp hx with hx | hx
    · obtain ⟨y, hy, hpush, hxy⟩ := ih hx
      exact ⟨y, hy.trans (Nat.lt_succ_self t), hpush, hxy⟩
    · rw [Option.mem_toList, filed] at hx
      obtain ⟨v, hv, rfl⟩ := Option.map_eq_some_iff.mp hx
      exact ⟨t, Nat.lt_succ_self t, by rw [hv]; rfl, rfl⟩

include hmono hlater

/-- A record goes into the FIFO after those that were shown up to the edge that read it. -/
theorem lt_of_push (h : (fifoPush z inp rt kd t).isSome = true) :
    0 < src t ∧ ∀ y < t, (inp y).sys = true → src y < src t := by
  obtain ⟨v, hl, he⟩ := exists_read_of_valid (push_isSome h).2
  obtain ⟨hvt, hsv, hno⟩ := latest_eq_some_iff.mp hl
  have hlt : src v < src t := (hlater v hsv he).trans_le (hmono hvt)
  refine ⟨(Nat.zero_le _).trans_lt hlt, fun y hyt hy => ?_⟩
  have hyv : y ≤ v := by
    by_contra hgt
    have := hno y (by omega) hyt
    rw [hy] at this
    cases this
  exact (hmono hyv).trans_lt hlt

/-- **The records in a FIFO are in order, each of them once**. -/
theorem pairwise_filed (t : ℕ) : (history (filed z inp rt kd src) t).Pairwise (· < ·) := by
  induction t with
  | zero => exact .nil
  | succ t ih =>
    rw [history_succ, List.pairwise_append]
    refine ⟨ih, ?_, ?_⟩
    · cases filed z inp rt kd src t <;> simp
    · intro x hx b hb
      rw [Option.mem_toList, filed] at hb
      obtain ⟨v, hv, rfl⟩ := Option.map_eq_some_iff.mp hb
      obtain ⟨y, hyt, hpush, rfl⟩ := mem_filed hx
      exact (lt_of_push hmono hlater (by rw [hv]; rfl)).2 y hyt (push_isSome hpush).1

end Filed

/-- The records that went into a FIFO, as the words of their sources. -/
theorem history_push {src : ℕ → ℕ}
    (hsrc : ∀ e, wordOf ((monitRun z inp e).path rt kd).cdc.q = recordAt z inp rt kd (src e))
    (t : ℕ) : history (fifoPush z inp rt kd) t = (history (filed z inp rt kd src) t).map
      fun x c => (recordAt z inp rt kd x c).signExtend 32 := by
  induction t with
  | zero => rfl
  | succ t ih =>
    rw [history_succ, history_succ, List.map_append, ih, filed]
    congr 1
    cases hv : fifoPush z inp rt kd t with
    | none => rfl
    | some v =>
      have hwords :
          v = fun c => (wordOf ((monitRun z inp t).path rt kd).cdc.q c).signExtend 32 := by
        unfold fifoPush Path.push at hv
        split at hv
        next => exact (Option.some.inj hv).symm
        next => cases hv
      rw [hwords, hsrc]
      rfl

/-! ## What comes out of it -/

variable (hrst : ∀ t, (inp t).rstN = true)

include hrst

/-- **A FIFO of the bank runs on the bus clock**. -/
theorem fifoRun (rt : Rate) (kd : Kind) : FifoRun F (fun t => (inp t).sys)
    (fifoPush z inp rt kd) (fifoRead z inp rt kd) (fifoOf z inp rt kd) where
  zero := F.contents_afterReset _
  edge t hs := by
    rw [fifoOf, monitRun_path_succ, Path.tick]
    simp only [hs, hrst, if_true, fifoOf, fifoPush, fifoRead, PortRun.pops, Bool.true_and]
  hold t hs := by
    refine ⟨?_, ?_, ?_⟩
    · rw [fifoOf, monitRun_path_succ, Path.tick]
      simp [hs]
    · simp [fifoPush, Path.push, hs]
    · simp [fifoRead, PortRun.pops, hs]
  not_full t hfull := by
    rw [fifoPush, Path.push, hfull]
    simp

/-- **The registers of a FIFO are a port of the bank**. -/
theorem portRun (rt : Rate) (kd : Kind) : PortRun latency (isHead rt kd) (fun t => (inp t).sys)
    (fun t => (inp t).bus.req) (fun t => (monitRun z inp t).ready)
    (fun t => (monitRun z inp t).regs.ack) fun t => (monitRun z inp t).regs.port rt kd where
  slave := monit_slave hrst
  ready_head t r hr := by
    rw [Monit.ready, of_decide_eq_true hr]
    rfl
  zero := rfl
  succ t := by
    rw [monitRun_regs_succ hrst]
    rfl

/-- While an access is answered, the FIFOs are not read. -/
theorem quiet_of_taken (hk : Keeps z inp) (rt : Rate) (kd : Kind)
    (hu : accessTaken z inp u = some r) (hut : u < t)
    (hc : (strobes (fun t => (inp t).sys) (u + 1) t).card ≤ latency r) :
    F.q (fifoOf z inp rt kd t) = F.q (fifoOf z inp rt kd u) ∧
      recordNumber z inp rt kd t = recordNumber z inp rt kd u ∧
      (F.contents (fifoOf z inp rt kd u)).length ≤ (F.contents (fifoOf z inp rt kd t)).length := by
  apply (fifoRun hrst rt kd).quiet hut.le
  intro y huy hyt
  exact (portRun hrst rt kd).no_pop hk hu huy ((card_strobes_mono hyt.le).trans hc)

/-- **The words that software reads from a FIFO are words of one record**, the one whose number is
the number of records that have left the FIFO. The records are filed in the order in which they were
taken, at edges of `fs_clk_i` with a valid, and each of them once. -/
theorem fifo_words_of_one_record (hk : Keeps z inp) (rt : Rate) (kd : Kind) :
    ∃ src : ℕ → ℕ, ∀ t,
      (history (filed z inp rt kd src) t).Pairwise (· < ·) ∧
      (∀ x ∈ history (filed z inp rt kd src) t, ∃ y < t, x = y + 1 ∧ (inp y).fs = true ∧
        ((inp y).path rt kd).ce = true ∧ ((inp y).path rt kd).valid = true) ∧
      ∀ r c k, accessDone z inp t = some r → decode r.adr = .fifo rt kd c →
        recordNumber z inp rt kd t = k + 1 →
        ∃ x, (history (filed z inp rt kd src) t)[k]? = some x ∧
          (monitRun z inp t).regs.rddata = (recordAt z inp rt kd x c).signExtend 32 := by
  obtain ⟨src, hmono, hvalid, hlater, hsrc⟩ := exists_record z inp rt kd
  refine ⟨src, fun t => ⟨pairwise_filed hmono hlater t, ?_, ?_⟩⟩
  · intro x hx
    obtain ⟨e, het, hpush, rfl⟩ := mem_filed hx
    obtain ⟨y, hy⟩ := Nat.exists_eq_succ_of_ne_zero (lt_of_push hmono hlater hpush).1.ne'
    obtain ⟨hye, hrec⟩ := hvalid e y hy
    exact ⟨y, hye.trans het, hy, hrec⟩
  · intro r c k hdone hr hn
    obtain ⟨-, u, hu, hut, hc⟩ := (accessDone_iff hrst hk).mp hdone
    obtain ⟨hq, -, -⟩ := quiet_of_taken hrst hk rt kd hu hut hc.le
    have hout := (fifoRun hrst rt kd).q_eq hn
    rw [history_push hsrc, List.getElem?_map, Option.map_eq_some_iff] at hout
    obtain ⟨x, hx, hwords⟩ := hout
    refine ⟨x, hx, ?_⟩
    rw [latency_eq_zero (by simp [hr])] at hc
    rw [rddata_eq hrst hu hut hc, Monit.readStart, hr]
    exact (congrFun (hwords.trans hq) c).symm

/-- Software reads the status of the FIFO of the amplitudes, then its first and its last word. -/
def fifoScript (t : ℕ) : Option Access :=
  if t < 10 then none
  else if t < 12 then some ⟨false, 42, 0⟩
  else if t < 16 then some ⟨false, 38, 0⟩
  else if t < 18 then some ⟨false, 41, 0⟩
  else none

omit hrst in
theorem fifoScript_keeps : Keeps PowerUp.zero (monitScript fifoScript) := by
  apply patient_of_finite (m := 18)
  · intro t ht
    have hnone : fifoScript t = none := by
      unfold fifoScript
      rw [if_neg (by omega), if_neg (by omega), if_neg (by omega), if_neg (by omega)]
    exact (Bus.req_ofReq (fifoScript t)).trans hnone
  · decide +kernel

omit hrst in
/-- The two words that the script reads come from one record, though a new one comes at every
tick. -/
theorem fifoScript_words :
    (monitRun PowerUp.zero (monitScript fifoScript) 17).regs.rddata =
      (monitRun PowerUp.zero (monitScript fifoScript) 15).regs.rddata + 3 := by
  obtain ⟨src, h⟩ := @fifo_words_of_one_record _ _ PowerUp.zero (monitScript fifoScript)
    (fun _ => rfl) fifoScript_keeps .monit .amp
  obtain ⟨-, hrec, hword⟩ := h 15
  obtain ⟨x, hx, hfirst⟩ := hword ⟨false, 38, 0⟩ .w0 0 (by decide +kernel) rfl (by decide +kernel)
  obtain ⟨x', hx', hlast⟩ := (h 17).2.2 ⟨false, 41, 0⟩ .w3 0 (by decide +kernel) rfl
    (by decide +kernel)
  have hsame : (history (filed PowerUp.zero (monitScript fifoScript) .monit .amp src) 17)[0]? =
      some x := by
    obtain ⟨hlt, -⟩ := List.getElem?_eq_some_iff.mp hx
    rw [history_succ, history_succ, List.append_assoc, List.getElem?_append_left hlt, hx]
  obtain rfl : x' = x := Option.some.inj (hx'.symm.trans hsame)
  obtain ⟨y, -, rfl, -⟩ := hrec x' (List.mem_of_getElem? hx)
  rw [hlast, hfirst]
  simp only [recordAt, PathIn.word, monitScript, BitVec.signExtend_eq, Word.index]
  simp [← BitVec.ofNat_add]

/-- The number of records in the status of a FIFO. -/
def usedw (v : BitVec 32) : BitVec 4 := v.extractLsb' 0 4

omit hrst in
theorem usedw_csrWord (p : Path w F) (undefined : BitVec 32) :
    usedw (Monit.csrWord p undefined) = F.usedw p.fifo :=
  BitVec.extractLsb'_append_eq_right

/-- **Each access to the first word takes out one record, as long as there is one**. Between two
acknowledges, at most as many records leave a FIFO as accesses to its first word are accepted; and
exactly as many, if there are no more of these than the status said at the first one. -/
theorem fifo_one_record_each (hk : Keeps z inp) (rt : Rate) (kd : Kind) {t' : ℕ} {r' : Access}
    (htt' : t ≤ t') (hdone : accessDone z inp t = some r) (hdone' : accessDone z inp t' = some r') :
    recordNumber z inp rt kd t ≤ recordNumber z inp rt kd t' ∧
    recordNumber z inp rt kd t' ≤ recordNumber z inp rt kd t +
      (headsDone z inp rt kd t' - headsDone z inp rt kd t) ∧
    (decode r.adr = .csr rt kd →
      headsDone z inp rt kd t' - headsDone z inp rt kd t ≤
        (usedw (monitRun z inp t).regs.rddata).toNat →
      recordNumber z inp rt kd t' = recordNumber z inp rt kd t +
        (headsDone z inp rt kd t' - headsDone z inp rt kd t)) := by
  have hpops : ∀ x q, accessDone z inp x = some q →
      (strobes (fifoRead z inp rt kd) 0 x).card = headsDone z inp rt kd x := by
    intro x q hx
    exact (portRun hrst rt kd).pops_of_accepted hk (ready_hold hrst) hx
  have hsplit := card_strobes_add (v := fifoRead z inp rt kd) (Nat.zero_le t) htt'
  have hheads : (strobes (fifoRead z inp rt kd) t t').card =
      headsDone z inp rt kd t' - headsDone z inp rt kd t := by
    rw [← hpops t r hdone, ← hpops t' r' hdone']
    omega
  have hcount : recordNumber z inp rt kd t' = recordNumber z inp rt kd t +
      (strobes (SyncFifo.takes (fifoOf z inp rt kd) (fifoRead z inp rt kd)) t t').card :=
    SyncFifo.count_add htt'
  have hle : (strobes (SyncFifo.takes (fifoOf z inp rt kd) (fifoRead z inp rt kd)) t t').card ≤
      (strobes (fifoRead z inp rt kd) t t').card := SyncFifo.card_takes_le
  rw [← hheads]
  refine ⟨by omega, by omega, ?_⟩
  intro hr hfew
  obtain ⟨-, u, hu, hut, hc⟩ := (accessDone_iff hrst hk).mp hdone
  obtain ⟨-, -, hlen⟩ := quiet_of_taken hrst hk rt kd hu hut hc.le
  rw [latency_eq_zero (by simp [hr])] at hc
  have hsaid : (usedw (monitRun z inp t).regs.rddata).toNat ≤
      (F.contents (fifoOf z inp rt kd u)).length := by
    rw [rddata_eq hrst hu hut hc, Monit.readStart, hr]
    simp only [usedw_csrWord]
    exact F.usedw_le _
  have hmin := ((fifoRun (z := z) hrst rt kd).le_card_takes htt').2
  omega

omit hrst in
/-- The status says that there are records, and the access to the first word takes one out. -/
theorem fifoScript_one_out :
    recordNumber PowerUp.zero (monitScript fifoScript) .monit .amp 15 =
      recordNumber PowerUp.zero (monitScript fifoScript) .monit .amp 11 + 1 := by
  have hall := (@fifo_one_record_each _ _ PowerUp.zero (monitScript fifoScript) 11 ⟨false, 42, 0⟩
    (fun _ => rfl) fifoScript_keeps .monit .amp 15 ⟨false, 38, 0⟩ (by decide) (by decide +kernel)
    (by decide +kernel)).2.2 rfl (by decide +kernel)
  rw [hall]
  decide +kernel

end Runs

end PositionCalc
