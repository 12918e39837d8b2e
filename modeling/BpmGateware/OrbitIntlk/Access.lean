import BpmGateware.OrbitIntlk.Regs

/-!
# Software accesses to the interlock

What a master on the bus sees of `wb_orbit_intlk_regs`, and what the interlock sees of the master.
The master keeps a request as long as it is stalled, as a pipelined master has to; the two clocks
run in any order, and where a word crosses between them, `fs_clk_i` is not slower than `clk_sys_i`.

## Main definitions

* `Keeps`: the master keeps a stalled request
* `settings`: what the accepted accesses left
* `diffRead`: the detector value that an access reads
* `Clear`: the three clears

## Main results

* `bus_protocol`: each access is taken up once and accepted once, at its own distance
* `access_answer`: an accepted access is answered from the settings that the accepted ones left
* `diff_answer`: a detector value read is one of the time between the request and its answer
* `limits_crossed`: the limits in force are the settings three edges ago, and those of an accepted
  write at once
* `write_arrives_iff`: the writes that are lost when `fs_clk_i` is slower
* `clear_pulses`: one clear pulse for each write of a clear bit
-/

namespace OrbitIntlk

open Clocked

/-- The master keeps a request up to the edge at which it is not stalled. -/
def Keeps (inp : ℕ → RegsIn) : Prop :=
  ∀ t r, (inp t).bus.req = some r →
    (inp t).sys = false ∨ (regsRun inp t).ack.stall (inp t).bus = true →
      (inp (t + 1)).bus.req = some r

/-- The detector value that an access reads. -/
def diffRead (r : Access) : Option Diff :=
  if r.we then none
  else match decode r.adr with
    | .diff d => some d
    | _ => none

theorem reads_eq (d : Diff) (r : Access) : reads d r = decide (diffRead r = some d) := by
  unfold reads diffRead
  cases r.we with
  | true => simp
  | false => cases decode r.adr <;> simp

theorem limit_latency {l : Limit} (r : Access) (hr : writes (.limit l) r = true) :
    latency r = 3 := by
  simp only [writes, Bool.and_eq_true, decide_eq_true_eq] at hr
  simp [latency, hr.2, ackBit]

theorem diff_latency {d : Diff} (r : Access) (hr : reads d r = true) : latency r = 5 := by
  simp only [reads, Bool.and_eq_true, decide_eq_true_eq] at hr
  simp [latency, hr.2, ackBit]

/-- The three clears of the control word. -/
inductive Clear
  | all
  | trans
  | ang
  deriving DecidableEq, Repr

def Clear.bit : Clear → ℕ
  | .all => 1
  | .trans => 4
  | .ang => 6

def Regs.clear (s : Regs) : Clear → Monostable
  | .all => s.ctrlClr
  | .trans => s.ctrlTransClr
  | .ang => s.ctrlAngClr

/-- The settings that the accesses accepted before `t` leave. -/
def settings (inp : ℕ → RegsIn) (t : ℕ) : Mem := (history (accessDone inp) t).foldl Mem.exec .reset

/-- The control word of a memory. -/
def Mem.word (m : Mem) (reserved : BitVec 24) (undefined : Bool) : BitVec 32 :=
  ctrlWord m.ctrlEn m.ctrlMinSumEn m.ctrlTransEn m.ctrlAngEn reserved undefined

section Runs

variable {inp : ℕ → RegsIn}

theorem stall_eq {a : AckGen 10} {b : Bus 4} {r : Access} (hr : b.req = some r) :
    a.stall b = !a.ack := by
  unfold Bus.req at hr
  unfold AckGen.stall
  cases hc : b.cyc <;> cases hs : b.stb <;> simp [hc, hs] at hr ⊢

theorem keeps_iff : Keeps inp ↔ Patient (fun t => (inp t).sys)
    (fun t => (inp t).bus.req) fun t => (regsRun inp t).ack := by
  unfold Keeps Patient
  refine forall_congr' fun t => forall_congr' fun r => forall_congr' fun hr => ?_
  rw [stall_eq hr, Bool.not_eq_true']

theorem Keeps.patient (h : Keeps inp) : Patient (fun t => (inp t).sys)
    (fun t => (inp t).bus.req) fun t => (regsRun inp t).ack := keeps_iff.mp h

/-- A master that shows the requests of `f`, with both clocks at every tick. -/
def script (f : ℕ → Option Access) (t : ℕ) : RegsIn where
  sys := true
  fs := true
  rstN := true
  bus := .ofReq (f t)
  ctrlReserved := 0
  undefined := false
  sts := ⟨⟨fun _ => false, fun _ => false, fun _ => false, fun _ => false, false, false, false,
    false, false, false⟩, ⟨fun _ => false, fun _ => false, fun _ => false, fun _ => false, false,
    false, false, false, false, false⟩, false, false, false⟩
  stsReserved := false
  diff _ := BitVec.ofNat 32 t

/-- A limit is written and read back, and then a detector value. -/
def limitScript (t : ℕ) : Option Access :=
  if t < 5 then some ⟨true, 3, 100⟩
  else if t < 10 then some ⟨false, 3, 0⟩
  else if t < 17 then some ⟨false, 11, 0⟩
  else none

theorem limitScript_keeps : Keeps (script limitScript) := by
  rw [keeps_iff]
  apply patient_of_finite (m := 17)
  · intro t ht
    have hnone : limitScript t = none := by
      unfold limitScript
      rw [if_neg (by omega), if_neg (by omega), if_neg (by omega)]
    exact (Bus.req_ofReq (limitScript t)).trans hnone
  · decide +kernel

theorem script_pace (f : ℕ → Option Access) :
    Pace (fun t => (script f t).sys) fun t => (script f t).fs :=
  fun _ y h => ⟨y, h.2.2.1, le_rfl, rfl⟩

variable (hrst : ∀ t, (inp t).rstN = true)

/-! ## The bus -/

include hrst

/-- **Each access is taken up once and accepted once**: an access is accepted exactly `latency`
edges after one that took it up, and the accesses taken up are those accepted, in their order, and
the one in progress. -/
theorem bus_protocol (hk : Keeps inp) :
    (∀ t r, accessDone inp t = some r ↔ (inp t).sys = true ∧
      ∃ u, accessTaken inp u = some r ∧ u < t ∧
        (strobes (fun t => (inp t).sys) (u + 1) t).card = latency r) ∧
    ∀ t, history (accessTaken inp) t = history (accessDone inp) t ++
      if (regsRun inp t).ack.inProgress then (inp t).bus.req.toList else [] :=
  ⟨fun _ _ => (regs_slave hrst).accepted_iff hk.patient,
    (regs_slave hrst).history_started hk.patient⟩

omit hrst in
/-- The read back is taken up at tick `5` and accepted at tick `9`. -/
theorem limitScript_protocol :
    accessDone (script limitScript) 9 = some ⟨false, 3, 0⟩ ∧
      history (accessTaken (script limitScript)) 10 = [⟨true, 3, 100⟩, ⟨false, 3, 0⟩] := by
  have h := @bus_protocol (script limitScript) (fun _ => rfl) limitScript_keeps
  refine ⟨(h.1 9 _).mpr ⟨rfl, 5, by decide +kernel, by omega, by decide⟩, ?_⟩
  rw [h.2 10]
  decide +kernel

/-! ## The answer -/

variable {t u x : ℕ} {r : Access}

theorem rddata_start (hu : accessTaken inp u = some r) :
    (regsRun inp (u + 1)).rddata = (regsRun inp u).readStart (inp u) r := by
  obtain ⟨hs, hi, hr⟩ := (regs_slave hrst).started_eq_some.mp hu
  rw [regsRun_succ hrst]
  simp only [Regs.clocked, Regs.move, slaveMove, hs, if_true, hi, hr, AckGen.move_idle_some]
  rfl

theorem diff_succ (d : Diff) (t : ℕ) :
    (regsRun inp (t + 1)).diff d = ((regsRun inp t).diff d).tick (reads d)
      (slaveMove (inp t).sys (inp t).bus.req (regsRun inp t).ack)
      ((regsRun inp t).ack.sreg.getLsbD 1) (inp t).fs ((inp t).diff d) := by
  rw [regsRun_succ hrst]
  rfl

/-- Only a read hands on a detector value, and only at the edge before its acknowledge. -/
theorem handOver_eq (hu : accessTaken inp u = some r) (hux : u < x)
    (hc : (strobes (fun t => (inp t).sys) (u + 1) x).card ≤ latency r) (w : BitVec 32) (d : Diff) :
    (regsRun inp x).handOver w d =
      if diffRead r = some d ∧ (strobes (fun t => (inp t).sys) (u + 1) x).card + 1 = latency r
      then ((regsRun inp x).diff d).int else w := by
  have hprog := AsyncRo.inProgress_busy (regs_slave hrst) (x := fun t => (regsRun inp t).diff d)
    rfl (diff_succ hrst d) (fun r hr => by rw [diff_latency r hr]; omega) hu hux hc
  have hack := (regs_slave hrst).busy hu hux hc
  have hlt := (regs_slave hrst).lat_lt r
  unfold Regs.handOver
  rw [hack, hprog, reads_eq, AckGen.due]
  simp only [BitVec.getLsbD_twoPow, Bool.and_eq_true, decide_eq_true_eq]
  by_cases hd : diffRead r = some d
  · simp only [hd, true_and]
    congr 1
    apply propext
    omega
  · simp [hd]

/-- `rddata_reg` while an access is in progress: it moves only to take over the detector value of
a read. -/
theorem rddata_succ (hu : accessTaken inp u = some r) (hux : u < x)
    (hc : (strobes (fun t => (inp t).sys) (u + 1) x).card ≤ latency r) :
    (regsRun inp (x + 1)).rddata =
      if (inp x).sys = true ∧ (strobes (fun t => (inp t).sys) (u + 1) x).card + 1 = latency r
      then (diffRead r).elim (regsRun inp x).rddata fun d => ((regsRun inp x).diff d).int
      else (regsRun inp x).rddata := by
  rw [regsRun_succ hrst]
  by_cases hs : (inp x).sys = true
  · simp only [hs, true_and]
    by_cases hadv : (strobes (fun t => (inp t).sys) (u + 1) x).card < latency r
    · have hm : (regsRun inp x).move (inp x) = some .advance := by
        simp only [Regs.move, slaveMove, hs, if_true]
        rw [(regs_slave hrst).move_advance hu hux hadv]
      simp only [Regs.clocked, hm, Regs.rddataNext, List.foldl_cons, List.foldl_nil,
        handOver_eq hrst hu hux hc]
      by_cases hlast : (strobes (fun t => (inp t).sys) (u + 1) x).card + 1 = latency r
      · simp only [hlast, and_true, if_true]
        cases hd : diffRead r with
        | none => simp
        | some d => cases d <;> simp
      · simp [hlast]
    · rw [if_neg (by omega)]
      have hm : (regsRun inp x).move (inp x) = some .finish := by
        have hd := (regs_slave hrst).busy hu hux hc
        simp only [Regs.move, slaveMove, hs, if_true]
        rw [hd, show latency r - (strobes (fun t => (inp t).sys) (u + 1) x).card = 0 by omega,
          AckGen.move_due_zero (by omega)]
      simp [Regs.clocked, hm, Regs.rddataNext]
  · simp only [hs, Bool.false_eq_true, false_and, if_false]
    simp [Regs.clocked, Regs.move, slaveMove, hs, Regs.rddataNext]

/-- An access other than a read of a detector value keeps its answer up to the acknowledge. -/
theorem rddata_held (hu : accessTaken inp u = some r) (hd : diffRead r = none) (hut : u < t)
    (hc : (strobes (fun t => (inp t).sys) (u + 1) t).card ≤ latency r) :
    (regsRun inp t).rddata = (regsRun inp u).readStart (inp u) r := by
  rw [← rddata_start hrst hu]
  apply hold_between (g := fun t => (regsRun inp t).rddata) hut
  intro x hux hxt
  rw [rddata_succ hrst hu hux ((card_strobes_mono hxt.le).trans hc), hd]
  split <;> rfl

/-- **An accepted access is answered from what the accepted ones before it left**: a limit or the
control word as last written, the status as it was when the access was taken up. -/
theorem access_answer (hk : Keeps inp) (hdone : accessDone inp t = some r) :
    ∃ u, accessTaken inp u = some r ∧ u < t ∧
      (strobes (fun t => (inp t).sys) (u + 1) t).card = latency r ∧
      (∀ l, decode r.adr = .limit l → (regsRun inp t).rddata = (settings inp t).limit l) ∧
      (decode r.adr = .ctrl →
        (regsRun inp t).rddata = (settings inp t).word (inp u).ctrlReserved (inp u).undefined) ∧
      (decode r.adr = .sts →
        (regsRun inp t).rddata = stsWord (inp u).sts (inp u).stsReserved) := by
  obtain ⟨u, hu, hut, hc, hm⟩ := (regs_slave hrst).accepted_response hk.patient
    (m := fun t => (regsRun inp t).mem) (mem_succ hrst) hdone
  have hm : (regsRun inp u).mem = settings inp t := hm
  refine ⟨u, hu, hut, hc, ?_, ?_, ?_⟩
  · intro l hl
    have hd : diffRead r = none := by simp [diffRead, hl]
    rw [rddata_held hrst hu hd hut hc.le, Regs.readStart, hl, ← hm]
    rfl
  · intro hctrl
    have hd : diffRead r = none := by simp [diffRead, hctrl]
    rw [rddata_held hrst hu hd hut hc.le, Regs.readStart, hctrl, ← hm]
    rfl
  · intro hsts
    have hd : diffRead r = none := by simp [diffRead, hsts]
    rw [rddata_held hrst hu hd hut hc.le, Regs.readStart, hsts]

omit hrst in
/-- The limit reads back as it was written. -/
theorem limitScript_answer : (regsRun (script limitScript) 9).rddata = 100 := by
  obtain ⟨-, -, -, -, h, -, -⟩ := @access_answer (script limitScript) (fun _ => rfl) 9
    ⟨false, 3, 0⟩ limitScript_keeps (by decide +kernel)
  rw [h .transMaxX rfl]
  decide +kernel

/-- **A detector value that is read is one of the time between the request and its answer**: the
one at the third edge of `fs_clk_i` after the access was taken up. -/
theorem diff_answer (hk : Keeps inp) (hp : Pace (fun t => (inp t).sys) fun t => (inp t).fs)
    {d : Diff} (hd : diffRead r = some d) (hdone : accessDone inp t = some r) :
    ∃ u y, accessTaken inp u = some r ∧ u < t ∧
      (strobes (fun t => (inp t).sys) (u + 1) t).card = latency r ∧
      NthAfter (fun t => (inp t).fs) 2 u y ∧ y < t ∧
      (regsRun inp t).rddata = (inp y).diff d := by
  obtain ⟨-, u, hu, hut, hc⟩ := ((regs_slave hrst).accepted_iff hk.patient).mp hdone
  have hread : reads d r = true := by rw [reads_eq, hd, decide_eq_true rfl]
  have hfive := diff_latency r hread
  obtain ⟨x, hxt, hux, hsx, hcx⟩ := exists_nthAfter (v := fun t => (inp t).sys) (n := 4) (u := u)
    (t := t) (by omega)
  obtain ⟨y, hyx, hy, hint⟩ := AsyncRo.int_fresh (regs_slave hrst)
    (x := fun t => (regsRun inp t).diff d) rfl (diff_succ hrst d)
    (fun r hr => by rw [diff_latency r hr]; omega) hp hu hread (t := x) (by omega) (by omega)
  refine ⟨u, y, hu, hut, hc, hy, by omega, ?_⟩
  have hload : (regsRun inp (x + 1)).rddata = (inp y).diff d := by
    rw [rddata_succ hrst hu hux (by omega), if_pos ⟨hsx, by omega⟩, hd]
    exact hint
  rw [← hload]
  apply hold_between (g := fun t => (regsRun inp t).rddata) hxt
  intro q hxq hqt
  have hq := card_strobes_mono (v := fun t => (inp t).sys) (c := u + 1) (show x + 1 ≤ q from hxq)
  have hq' := card_strobes_mono (v := fun t => (inp t).sys) (c := u + 1) hqt.le
  rw [card_strobes_after hux, if_pos hsx] at hq
  rw [rddata_succ hrst hu (by omega) (by omega), if_neg (by omega)]

omit hrst in
/-- The read is taken up at tick `10`, and the value is that of the third edge after it. -/
theorem limitScript_fresh : (regsRun (script limitScript) 16).rddata = 13 := by
  obtain ⟨u, y, -, hut, hcard, ⟨huy, -, hcy⟩, -, h⟩ := @diff_answer (script limitScript)
    (fun _ => rfl) 16 ⟨false, 11, 0⟩ limitScript_keeps (script_pace _) .transX rfl
    (by decide +kernel)
  have hu : (strobes (fun _ => true) (u + 1) 16).card = 5 := hcard
  have hy : (strobes (fun _ => true) (u + 1) y).card = 2 := hcy
  simp only [strobes, Finset.filter_true, Nat.card_Ico] at hu hy
  obtain rfl : y = 13 := by omega
  exact h

/-! ## What the interlock sees -/

theorem limit_succ (l : Limit) (t : ℕ) :
    (regsRun inp (t + 1)).limit l = ((regsRun inp t).limit l).tick (writes (.limit l))
      (fun r => r.dat) (slaveMove (inp t).sys (inp t).bus.req (regsRun inp t).ack) (inp t).fs := by
  rw [regsRun_succ hrst]
  rfl

omit hrst in
theorem two_le_latency (l : Limit) (r : Access) (hr : writes (.limit l) r = true) :
    2 ≤ latency r := by
  rw [limit_latency r hr]
  omega

/-- **The limits in force are the settings three edges of `fs_clk_i` ago**, and a write that is
accepted is in force. -/
theorem limits_crossed (hk : Keeps inp) (hp : Pace (fun t => (inp t).sys) fun t => (inp t).fs) :
    (∀ t l, ((regsRun inp t).limit l).out =
      sampled (fun t => (inp t).fs) 0 (sampled (fun t => (inp t).fs) 0
        (sampled (fun t => (inp t).fs) 0
          fun t => ((history (accessTaken inp) t).foldl Mem.exec .reset).limit l)) t) ∧
    ∀ t r l, accessDone inp t = some r → writes (.limit l) r = true →
      ((regsRun inp t).limit l).out = r.dat := by
  constructor
  · intro t l
    simp only [← mem_eq hrst]
    exact AsyncRw.out_eq (regs_slave hrst) (x := fun t => (regsRun inp t).limit l) rfl
      (limit_succ hrst l) (two_le_latency l) hp t
  · intro t r l hdone hr
    obtain ⟨-, u, hu, hut, hc⟩ := ((regs_slave hrst).accepted_iff hk.patient).mp hdone
    rw [limit_latency r hr] at hc
    apply AsyncRw.out_inForce (regs_slave hrst) (x := fun t => (regsRun inp t).limit l) rfl
      (limit_succ hrst l) (two_le_latency l) hp hu hr (t := t) (by omega)
    intro y huy hyt q hq
    have hcy := card_strobes_mono (v := fun t => (inp t).sys) (c := u + 1) hyt.le
    rw [(regs_slave hrst).started_eq_none hu huy (by rw [limit_latency r hr]; omega)] at hq
    cases hq

omit hrst in
/-- The limit is in force when its write is accepted. -/
theorem limitScript_inForce :
    ((regsRun (script limitScript) 4).limit .transMaxX).out = 100 :=
  (@limits_crossed (script limitScript) (fun _ => rfl) limitScript_keeps
    (script_pace _)).2 4 ⟨true, 3, 100⟩ .transMaxX (by decide +kernel) rfl

/-- **A write arrives exactly if `fs_clk_i` has an edge while its strobe is up**, whatever the
clocks: a last write to a limit, with its crossing quiet, is ever in force only then, though the
bank holds it from its first edge on. -/
theorem write_arrives_iff {l : Limit} (hu : accessTaken inp u = some r)
    (hw : writes (.limit l) r = true)
    (hlast : ∀ x q, u < x → accessTaken inp x = some q → writes (.limit l) q = false)
    (h0 : ((regsRun inp (u + 1)).limit l).sync.s0 = false)
    (h1 : ((regsRun inp (u + 1)).limit l).sync.s1 = false)
    (hne : ((regsRun inp (u + 1)).limit l).out ≠ r.dat)
    (hfs : ∀ n, ∃ x, n ≤ x ∧ (inp x).fs = true) :
    (∀ t, u < t → (regsRun inp t).mem.limit l = r.dat) ∧
      ((∃ t, u < t ∧ ((regsRun inp t).limit l).out = r.dat) ↔
        ∃ x, u < x ∧ (inp x).fs = true ∧
          (strobes (fun t => (inp t).sys) (u + 1) x).card ≤ 1) := by
  constructor
  · intro t hut
    rw [← AsyncRw.int_written (regs_slave hrst) (x := fun t => (regsRun inp t).limit l)
      (limit_succ hrst l) hu hw]
    exact AsyncRw.int_hold (regs_slave hrst) (x := fun t => (regsRun inp t).limit l)
      (limit_succ hrst l) hut fun y huy _ q hq => hlast y q huy hq
  · exact AsyncRw.arrives_iff (regs_slave hrst) (x := fun t => (regsRun inp t).limit l) rfl
      (limit_succ hrst l) (two_le_latency l) hu hw hlast h0 h1 hne hfs

omit hrst in
/-- With an edge of `fs_clk_i` in every eighth cycle, the limit is accepted and held, and never in
force. -/
theorem slowScript_lost :
    accessDone (fun t => { script limitScript t with fs := decide (t % 8 = 7) }) 4 =
        some ⟨true, 3, 100⟩ ∧
      (regsRun (fun t => { script limitScript t with fs := decide (t % 8 = 7) }) 50).mem.limit
        .transMaxX = 100 ∧
      ¬ ∃ t, 0 < t ∧ ((regsRun (fun t => { script limitScript t with fs := decide (t % 8 = 7) })
        t).limit .transMaxX).out = 100 := by
  have hlast : ∀ x q, 0 < x → accessTaken (fun t =>
      { script limitScript t with fs := decide (t % 8 = 7) }) x = some q →
        writes (.limit .transMaxX) q = false := by
    intro x q hx hq
    have hreq := ((regs_slave (fun _ => rfl)).started_eq_some.mp hq).2.2
    rcases Nat.lt_or_ge x 17 with hlt | hge
    · have hno : ∀ x < 17, 0 < x → ∀ q ∈ accessTaken (fun t =>
          { script limitScript t with fs := decide (t % 8 = 7) }) x,
            writes (.limit .transMaxX) q = false := by decide +kernel
      exact hno x hlt hx q hq
    · rw [show (script limitScript x).bus.req = limitScript x from Bus.req_ofReq _, limitScript,
        if_neg (by omega), if_neg (by omega), if_neg (by omega)] at hreq
      cases hreq
  obtain ⟨hheld, harr⟩ := @write_arrives_iff
    (fun t => { script limitScript t with fs := decide (t % 8 = 7) })
    (fun _ => rfl) 0 ⟨true, 3, 100⟩ .transMaxX (by decide +kernel) rfl hlast
    (by decide +kernel) (by decide +kernel) (by decide +kernel)
    (fun n => ⟨8 * n + 7, by omega, by simp⟩)
  refine ⟨by decide +kernel, hheld 50 (by omega), ?_⟩
  rw [harr]
  rintro ⟨x, hx, hfx, hcard⟩
  have hx7 : 7 ≤ x := by
    have := of_decide_eq_true hfx
    omega
  have hle : (strobes (fun _ => true) 1 x).card ≤ 1 := hcard
  have hmono := card_strobes_mono (v := fun _ => true) (c := 1) (show 4 ≤ x by omega)
  have hthree : (strobes (fun _ => true) 1 4).card = 3 := by decide
  omega

theorem clear_succ (k : Clear) (t : ℕ) :
    (regsRun inp (t + 1)).clear k = ((regsRun inp t).clear k).tick (writes .ctrl)
      (fun r => r.dat.getLsbD k.bit)
      (slaveMove (inp t).sys (inp t).bus.req (regsRun inp t).ack) := by
  rw [regsRun_succ hrst]
  cases k <;> rfl

/-- **Each write of a clear bit gives one pulse**, from the first edge of the bus clock after it to
the second. -/
theorem clear_pulses (k : Clear) :
    ((regsRun inp t).clear k).out = true ↔
      ∃ u r, accessTaken inp u = some r ∧ writes .ctrl r = true ∧ r.dat.getLsbD k.bit = true ∧
        u < t ∧ (strobes (fun t => (inp t).sys) (u + 1) t).card = 1 := by
  apply Monostable.out_iff (regs_slave hrst) (x := fun t => (regsRun inp t).clear k)
  · cases k <;> rfl
  · exact clear_succ hrst k

omit hrst in
/-- A write of the clear bit at tick `0` gives a pulse in tick `2`. -/
theorem clearScript_pulse :
    ((regsRun (script fun t => if t < 4 then some ⟨true, 0, 2⟩ else none) 2).clear .all).out =
      true :=
  (@clear_pulses (script fun t => if t < 4 then some ⟨true, 0, 2⟩ else none)
    (fun _ => rfl) 2 .all).mpr
    ⟨0, ⟨true, 0, 2⟩, by decide +kernel, by decide, by decide, by omega, by decide⟩

end Runs

end OrbitIntlk
