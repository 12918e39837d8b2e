import BpmGateware.Clocked.AckSlave

/-!
# Registers of a bank behind a bus slave

The kinds of registers that a slave of `AckSlave` holds for a second clock `fs`: a register that
software writes and the other side reads, one that the other side provides and software reads, and
a bit that gives a pulse for each write. A register is stepped by what the slave does at an edge of
the bus clock, `none` at the ticks without one; `sel` tells which requests are meant for it.

## Main definitions

* `Bus`, `Request`: the signals of a master, and what it asks for
* `Move.strobeOp sel`: what the slave does to the strobe of a register
* `AsyncRw`: a word written by software, brought over by a strobe
* `AsyncRo`: a word of the other side, brought over for each read
* `Monostable`: a pulse for each write

## Main results

* `Slave.crossing`: the strobe of a register crosses as `Crossing` asks
* `AsyncRw.int_eq`, `AsyncRw.out_eq`, `AsyncRw.out_inForce`: the word last written, three registers
  in a row on it, and the word of a write in force when the write is accepted
* `AsyncRw.arrives_iff`: the writes that arrive, whatever the clocks
* `AsyncRw.exists_monotone_int`, `AsyncRw.out_eq_int`: the other side has a word that the register
  held, in order, and the same word while no write is on its way
* `AsyncRw.InStep.pair_tick`: two registers that one access writes cross as one
* `AsyncRo.int_fresh`, `AsyncRo.inProgress_busy`: the word of a read was taken after its start
* `Monostable.out_iff`: one pulse for each write, one edge after it
-/

namespace Clocked

variable {ρ α : Type} {n : ℕ}

/-! ## Requests -/

/-- The signals of a master. -/
structure Bus (k : ℕ) where
  cyc : Bool
  stb : Bool
  we : Bool
  adr : BitVec k
  dat : BitVec 32
  deriving DecidableEq, Repr

/-- An access to the word at an address. -/
structure Request (k : ℕ) where
  we : Bool
  adr : BitVec k
  dat : BitVec 32
  deriving DecidableEq, Repr

/-- The request that a master shows. -/
def Bus.req {k : ℕ} (b : Bus k) : Option (Request k) :=
  if b.cyc && b.stb then some ⟨b.we, b.adr, b.dat⟩ else none

/-- The signals of a master that shows a request, or none. -/
def Bus.ofReq {k : ℕ} (o : Option (Request k)) : Bus k :=
  o.elim ⟨false, false, false, 0, 0⟩ fun r => ⟨true, true, r.we, r.adr, r.dat⟩

theorem Bus.req_ofReq {k : ℕ} (o : Option (Request k)) : (ofReq o).req = o := by
  cases o <;> rfl

/-- The stall: a request is shown and not acknowledged. -/
def AckGen.stall {k : ℕ} (a : AckGen n) (b : Bus k) : Bool := !a.ack && (b.stb && b.cyc)

/-! ## Strobes driven by a slave -/

/-- What the slave does to the strobe of the register that `sel` selects. -/
def Move.strobeOp (sel : ρ → Bool) : Move ρ → StrobeOp
  | .rest => .hold
  | .start r => if sel r then .start else .hold
  | .advance => .advance
  | .finish => .hold

/-- What a slave does at a tick. -/
def slaveMove (sys : Bool) (req : Option ρ) (a : AckGen n) : Option (Move ρ) :=
  if sys then some (a.move req) else none

/-- The request that is taken up, if any. -/
def startOf : Option (Move ρ) → Option ρ
  | some (.start r) => some r
  | _ => none

/-- The strobe at a tick. -/
def Strobe.tick (sel : ρ → Bool) (p : Strobe) : Option (Move ρ) → Strobe
  | none => p
  | some m => p.next (m.strobeOp sel)

/-- The sampling chain at a tick. -/
def Sync.tick (c : Sync) (fs strobe : Bool) : Sync := if fs then c.next strobe else c

section Slave

variable {lat : ρ → ℕ} {sys fs : ℕ → Bool} {req : ℕ → Option ρ} {a : ℕ → AckGen n}
variable {sel : ρ → Bool} {p : ℕ → Strobe} {c : ℕ → Sync} {t u : ℕ} {r : ρ}

/-- The strobe operations of a slave. -/
abbrev slaveOp (req : ℕ → Option ρ) (a : ℕ → AckGen n) (sel : ρ → Bool) (t : ℕ) : StrobeOp :=
  ((a t).move (req t)).strobeOp sel

theorem Slave.startOf_slaveMove (h : Slave lat sys req a) (t : ℕ) :
    startOf (slaveMove (sys t) (req t) (a t)) = started sys req a t := by
  unfold slaveMove started
  by_cases hs : sys t = true
  · rcases h.idle_or_due t with hi | ⟨j, hj, hd⟩
    · rw [hi, hs]
      cases req t <;> rfl
    · rw [hd, hs]
      cases j with
      | zero => rw [AckGen.move_due_zero hj]; rfl
      | succ j => rw [AckGen.move_due_succ hj]; rfl
  · simp [hs, startOf]

theorem Slave.starts_iff (h : Slave lat sys req a) :
    starts sys (slaveOp req a sel) t = true ↔
      ∃ r, started sys req a t = some r ∧ sel r = true := by
  rw [Crossing.starts_eq_true]
  simp only [h.started_eq_some, slaveOp]
  rcases h.idle_or_due t with hi | ⟨j, hj, hd⟩
  · rw [hi]
    cases hr : req t with
    | none => simp [Move.strobeOp]
    | some r => by_cases hsel : sel r = true <;> simp [Move.strobeOp, hsel]
  · rw [hd]
    cases j with
    | zero => rw [AckGen.move_due_zero hj]; simp [Move.strobeOp, AckGen.due_ne_idle]
    | succ j => rw [AckGen.move_due_succ hj]; simp [Move.strobeOp, AckGen.due_ne_idle]

/-- The edges between a start and the last one before its acknowledge advance the strobes. -/
theorem Slave.move_advance (h : Slave lat sys req a) (hu : started sys req a u = some r)
    (hut : u < t) (hc : (strobes sys (u + 1) t).card < lat r) :
    (a t).move (req t) = .advance := by
  have hlt := h.lat_lt r
  rw [h.busy hu hut hc.le, show lat r - (strobes sys (u + 1) t).card =
    (lat r - (strobes sys (u + 1) t).card - 1) + 1 by omega]
  exact AckGen.move_due_succ (by omega)

/-- **The strobe of a register crosses**, if its requests are long enough. -/
theorem Slave.crossing (h : Slave lat sys req a) (hsel : ∀ r, sel r = true → 2 ≤ lat r)
    (hp₀ : p 0 = ⟨false, false⟩) (hc₀ : c 0 = ⟨false, false, false⟩)
    (hp : ∀ t, p (t + 1) = (p t).tick sel (slaveMove (sys t) (req t) (a t)))
    (hc : ∀ t, c (t + 1) = (c t).tick (fs t) (p t).strobe) :
    Crossing sys fs (slaveOp req a sel) p c where
  strobe_zero := hp₀
  sync_zero := hc₀
  strobe_succ t := by
    rw [hp, slaveMove]
    by_cases hs : sys t = true <;> simp [hs, Strobe.tick]
  sync_succ := hc
  advances u x hu hux hs hcard := by
    obtain ⟨r, hr, hs⟩ := h.starts_iff.mp hu
    have := hsel r hs
    rw [slaveOp, h.move_advance hr hux (by omega)]
    rfl

end Slave

/-! ## Registers written by software -/

/-- A register that software writes and the other side reads. -/
structure AsyncRw (α : Type) where
  int : α
  swb : Strobe
  sync : Sync
  out : α
  deriving DecidableEq, Repr

/-- What a write leaves in the register. -/
def rwExec (sel : ρ → Bool) (val : ρ → α) (v : α) (r : ρ) : α := if sel r then val r else v

section Exec

variable {e : ℕ → Option ρ} {sel : ρ → Bool} {val : ρ → α} {m : ℕ → α} {u : ℕ} {r : ρ}

variable (hm : ∀ t, m (t + 1) = (e t).elim (m t) (rwExec sel val (m t)))

include hm

/-- A register has what is written to it. -/
theorem rwExec_written (hu : e u = some r) (hr : sel r = true) : m (u + 1) = val r := by
  rw [hm, hu, Option.elim_some, rwExec, if_pos hr]

/-- Up to the next write, a register keeps its word. -/
theorem rwExec_hold {b : ℕ} (hub : u ≤ b)
    (hno : ∀ y, u ≤ y → y < b → ∀ q, e y = some q → sel q = false) : m b = m u := by
  apply hold_between hub
  intro y huy hyb
  rw [hm]
  cases hq : e y with
  | none => rfl
  | some q => simp [rwExec, hno y huy hyb q hq]

end Exec

/-- The register in reset. -/
def AsyncRw.reset (z : α) : AsyncRw α := ⟨z, ⟨false, false⟩, ⟨false, false, false⟩, z⟩

/-- One tick: a start that `sel` selects writes `val` and raises the strobe; at its own edge, the
other side takes the word over where it sees the strobe rise. -/
def AsyncRw.tick (sel : ρ → Bool) (val : ρ → α) (x : AsyncRw α) (m : Option (Move ρ))
    (fs : Bool) : AsyncRw α where
  int := (startOf m).elim x.int (rwExec sel val x.int)
  swb := x.swb.tick sel m
  sync := x.sync.tick fs x.swb.strobe
  out := if fs && x.sync.rise then x.int else x.out

namespace AsyncRw

variable {lat : ρ → ℕ} {sys fs : ℕ → Bool} {req : ℕ → Option ρ} {a : ℕ → AckGen n}
variable {sel : ρ → Bool} {val : ρ → α} {x : ℕ → AsyncRw α} {z : α} {t u : ℕ} {r : ρ}

variable (h : Slave lat sys req a) (hx₀ : x 0 = .reset z)
  (hx : ∀ t, x (t + 1) = (x t).tick sel val (slaveMove (sys t) (req t) (a t)) (fs t))

include h hx

theorem int_succ (t : ℕ) :
    (x (t + 1)).int = (started sys req a t).elim (x t).int (rwExec sel val (x t).int) := by
  rw [hx, ← h.startOf_slaveMove]
  rfl

theorem int_succ_starts (t : ℕ) : (x (t + 1)).int =
    if starts sys (slaveOp req a sel) t then (x (t + 1)).int else (x t).int := by
  by_cases hs : starts sys (slaveOp req a sel) t = true
  · rw [if_pos hs]
  · rw [if_neg hs, int_succ h hx]
    cases hr : started sys req a t with
    | none => rfl
    | some r =>
      have hr' : ¬ sel r = true := fun hsel => hs (h.starts_iff.mpr ⟨r, hr, hsel⟩)
      rw [Option.elim_some, rwExec, if_neg hr']

theorem int_written (hu : started sys req a u = some r) (hr : sel r = true) :
    (x (u + 1)).int = val r :=
  rwExec_written (m := fun t => (x t).int) (int_succ h hx) hu hr

theorem int_hold {b : ℕ} (hub : u ≤ b)
    (hno : ∀ y, u ≤ y → y < b → ∀ q, started sys req a y = some q → sel q = false) :
    (x b).int = (x u).int :=
  rwExec_hold (m := fun t => (x t).int) (int_succ h hx) hub hno

include hx₀

/-- **The register holds what was last written**. -/
theorem int_eq (t : ℕ) :
    (x t).int = (history (started sys req a) t).foldl (rwExec sel val) z := by
  rw [eq_foldl_history (m := fun t => (x t).int) (int_succ h hx), hx₀]
  rfl

theorem crossing (hsel : ∀ r, sel r = true → 2 ≤ lat r) :
    Crossing sys fs (slaveOp req a sel) (fun t => (x t).swb) fun t => (x t).sync := by
  apply h.crossing hsel
  · simp [hx₀, reset]
  · simp [hx₀, reset]
  · intro t
    rw [hx]
    rfl
  · intro t
    rw [hx]
    rfl

/-- **The other side sees the register three of its edges late**, and nothing but that. -/
theorem out_eq (hsel : ∀ r, sel r = true → 2 ≤ lat r) (hp : Pace sys fs) (t : ℕ) :
    (x t).out = sampled fs z (sampled fs z (sampled fs z fun t => (x t).int)) t := by
  refine (crossing h hx₀ hx hsel).out_eq_sampled (w := fun t => (x t).int)
    (d := fun t => (x (t + 1)).int) (o := fun t => (x t).out) hp (by simp [hx₀, reset]) ?_
    (by simp [hx₀, reset]) ?_ t
  · exact int_succ_starts h hx
  · intro t
    rw [hx]
    rfl

/-- **A write arrives exactly if the other clock has an edge while its strobe is up**, if it is the
last one and its crossing is quiet. -/
theorem arrives_iff (hsel : ∀ r, sel r = true → 2 ≤ lat r) (hu : started sys req a u = some r)
    (hr : sel r = true)
    (hlast : ∀ y q, u < y → started sys req a y = some q → sel q = false)
    (h0 : (x (u + 1)).sync.s0 = false) (h1 : (x (u + 1)).sync.s1 = false)
    (hne : (x (u + 1)).out ≠ val r) (hfs : ∀ n, ∃ y, n ≤ y ∧ fs y = true) :
    (∃ t, u < t ∧ (x t).out = val r) ↔
      ∃ y, u < y ∧ fs y = true ∧ (strobes sys (u + 1) y).card ≤ 1 := by
  rw [← int_written h hx hu hr] at hne ⊢
  refine (crossing h hx₀ hx hsel).arrives_iff (w := fun t => (x t).int)
    (d := fun t => (x (t + 1)).int) (o := fun t => (x t).out) (int_succ_starts h hx) ?_
    (h.starts_iff.mpr ⟨r, hu, hr⟩) ?_ h0 h1 hne hfs
  · intro t
    rw [hx]
    rfl
  · intro y huy
    by_contra hs
    obtain ⟨q, hq, hsq⟩ := h.starts_iff.mp (by simpa using hs)
    rw [hlast y q huy hq] at hsq
    cases hsq

/-- **A write is in force when it is accepted**: three edges of the bus clock after it, and up to
the next write, the other side has its word. -/
theorem out_inForce (hsel : ∀ r, sel r = true → 2 ≤ lat r) (hp : Pace sys fs)
    (hu : started sys req a u = some r) (hr : sel r = true)
    (hc : 3 ≤ (strobes sys (u + 1) t).card)
    (hno : ∀ y, u < y → y < t → ∀ q, started sys req a y = some q → sel q = false) :
    (x t).out = val r := by
  have hint : ∀ y, u < y → y ≤ t → (x y).int = val r := by
    intro y huy hyt
    rw [int_hold h hx huy fun q huq hqy => hno q huq (by omega), int_written h hx hu hr]
  have hcf := hp.card_le (t := t) (h.started_eq_some.mp hu).1
  -- the last three edges of the other clock all come after the write
  rw [out_eq h hx₀ hx hsel hp]
  apply sampled_eq_of_card (u := u) (k := 2) (by omega)
  intro y huy hyt hcy
  apply sampled_eq_of_card (u := u) (k := 1) (by omega)
  intro y' huy' hyt' hcy'
  apply sampled_eq_of_card (u := u) (k := 0) (by omega)
  intro y'' huy'' hyt'' _
  exact hint y'' huy'' (by omega)

omit h in
/-- **What the other side has is the register at an earlier tick**, whatever the clocks, and these
ticks come in order. -/
theorem exists_monotone_int :
    ∃ y : ℕ → ℕ, Monotone y ∧ ∀ t, y t ≤ t ∧ (x t).out = (x (y t)).int := by
  refine ⟨fun t => (latest (fires fs fun t => (x t).sync) t).elim 0 (· + 1) - 1, ?_, ?_⟩
  · exact fun a b hab => Nat.sub_le_sub_right (monotone_latest hab) 1
  · intro t
    have hout := eq_sampled (r := fun t => (x t).out) (v := fires fs fun t => (x t).sync) (z := z)
      (d := fun t => (x t).int) (by simp [hx₀, reset]) (fun t => by rw [hx]; rfl) t
    beta_reduce
    rw [hout]
    cases hl : latest (fires fs fun t => (x t).sync) t with
    | none =>
      refine ⟨Nat.zero_le t, ?_⟩
      rw [sampled_of_none hl]
      simp [hx₀, reset]
    | some y =>
      refine ⟨(latest_eq_some_iff.mp hl).1.le, ?_⟩
      rw [sampled_of_latest hl, Option.elim_some, Nat.add_sub_cancel]

/-- **Three edges of the bus clock after the last write, both sides have the same word**. -/
theorem out_eq_int (hsel : ∀ r, sel r = true → 2 ≤ lat r) (hp : Pace sys fs)
    (hq : ∀ u r, u < t → started sys req a u = some r → sel r = true →
      3 ≤ (strobes sys (u + 1) t).card) : (x t).out = (x t).int := by
  cases hl : latest (starts sys (slaveOp req a sel)) t with
  | none =>
    obtain ⟨y, -, hy⟩ := exists_monotone_int hx₀ hx
    rw [(hy t).2]
    symm
    apply int_hold h hx (hy t).1
    intro x _ hxt q hsx
    by_contra hne
    have hst := latest_eq_none_iff.mp hl x hxt
    rw [h.starts_iff.mpr ⟨q, hsx, by simpa using hne⟩] at hst
    cases hst
  | some u =>
    obtain ⟨hut, hsu, hno⟩ := latest_eq_some_iff.mp hl
    obtain ⟨r, hr, hsr⟩ := h.starts_iff.mp hsu
    have hlater : ∀ y, u < y → y < t → ∀ q, started sys req a y = some q → sel q = false := by
      intro y huy hyt q hsy
      by_contra hne
      have hst := hno y huy hyt
      rw [h.starts_iff.mpr ⟨q, hsy, by simpa using hne⟩] at hst
      cases hst
    rw [out_inForce h hx₀ hx hsel hp hr hsr (hq u r hut hr hsr) hlater, int_hold h hx hut hlater,
      int_written h hx hr hsr]

/-- **With an acknowledge, the other side has what was accepted up to then**, and it keeps it up to
the next write. -/
theorem out_of_accepted (hsel : ∀ r, sel r = true → 3 ≤ lat r) (hp : Pace sys fs)
    (hk : Patient sys req a) {b : ℕ} (hb : accepted sys req a b = some r) (hbt : b ≤ t)
    (hno : ∀ y, b ≤ y → y < t → ∀ q, started sys req a y = some q → sel q = false) :
    (x t).out = (history (accepted sys req a) (b + 1)).foldl (rwExec sel val) z := by
  have hquiet : ∀ u q, u < t → started sys req a u = some q → sel q = true →
      3 ≤ (strobes sys (u + 1) t).card := by
    intro u q hut hu hq
    have hub : u < b := by
      by_contra hge
      rw [hno u (by omega) hut q hu] at hq
      cases hq
    calc 3 ≤ lat q := hsel q hq
      _ ≤ (strobes sys (u + 1) b).card := h.lat_le_of_accepted hk hb hu hub
      _ ≤ (strobes sys (u + 1) t).card := card_strobes_mono hbt
  rw [out_eq_int h hx₀ hx (fun q hq => Nat.le_of_succ_le (hsel q hq)) hp hquiet,
    int_hold h hx hbt hno, int_eq h hx₀ hx, h.history_started_of_accepted hk hb]

end AsyncRw

/-! ## Registers written together -/

section Pair

variable {β : Type}

/-- Two registers that one access writes, as one register. -/
def AsyncRw.pair (x : AsyncRw α) (y : AsyncRw β) : AsyncRw (α × β) :=
  ⟨(x.int, y.int), x.swb, x.sync, (x.out, y.out)⟩

/-- Two crossings with the same strobe and the same chain. -/
structure AsyncRw.InStep (x : AsyncRw α) (y : AsyncRw β) : Prop where
  swb : x.swb = y.swb
  sync : x.sync = y.sync

variable {sel : ρ → Bool} {val : ρ → α} {val' : ρ → β} {x : AsyncRw α} {y : AsyncRw β}

/-- Registers that the same accesses write stay in step. -/
theorem AsyncRw.InStep.tick (h : x.InStep y) (m : Option (Move ρ)) (fs : Bool) :
    (x.tick sel val m fs).InStep (y.tick sel val' m fs) := by
  refine ⟨?_, ?_⟩
  · simp only [AsyncRw.tick, h.swb]
  · simp only [AsyncRw.tick, h.swb, h.sync]

/-- **Registers in step cross as one**. -/
theorem AsyncRw.InStep.pair_tick (h : x.InStep y) (m : Option (Move ρ)) (fs : Bool) :
    (x.tick sel val m fs).pair (y.tick sel val' m fs) =
      (x.pair y).tick sel (fun r => (val r, val' r)) m fs := by
  simp only [AsyncRw.tick, AsyncRw.pair, AsyncRw.mk.injEq, true_and, ← h.sync]
  constructor
  · cases startOf m with
    | none => rfl
    | some r =>
      unfold rwExec
      by_cases hr : sel r = true <;> simp [hr]
  · by_cases hf : (fs && x.sync.rise) = true <;> simp [hf]

end Pair

/-! ## Registers read by software -/

/-- A register that the other side provides and software reads. -/
structure AsyncRo (α : Type) where
  int : α
  lwb : Strobe
  lwbInProgress : Bool
  sync : Sync
  deriving DecidableEq, Repr

/-- The register in reset. -/
def AsyncRo.reset (z : α) : AsyncRo α := ⟨z, ⟨false, false⟩, false, ⟨false, false, false⟩⟩

/-- One tick: a start that `sel` selects raises the strobe and waits for the word; `last` marks the
edge before the acknowledge, at which the word is handed on. -/
def AsyncRo.tick (sel : ρ → Bool) (x : AsyncRo α) (m : Option (Move ρ)) (last fs : Bool)
    (src : α) : AsyncRo α where
  int := if fs && x.sync.rise then src else x.int
  lwb := x.lwb.tick sel m
  lwbInProgress := match m with
    | some (.start r) => sel r || x.lwbInProgress
    | some .advance => x.lwbInProgress && !last
    | _ => x.lwbInProgress
  sync := x.sync.tick fs x.lwb.strobe

namespace AsyncRo

variable {lat : ρ → ℕ} {sys fs : ℕ → Bool} {req : ℕ → Option ρ} {a : ℕ → AckGen n}
variable {sel : ρ → Bool} {src : ℕ → α} {x : ℕ → AsyncRo α} {z : α} {t u : ℕ} {r : ρ}

variable (h : Slave lat sys req a) (hx₀ : x 0 = .reset z)
  (hx : ∀ t, x (t + 1) = (x t).tick sel (slaveMove (sys t) (req t) (a t))
    ((a t).sreg.getLsbD 1) (fs t) (src t))

include h hx₀ hx

/-- **The word of a read was taken after the start of the read**, at the third edge of its clock. -/
theorem int_fresh (hsel : ∀ r, sel r = true → 2 ≤ lat r) (hp : Pace sys fs)
    (hu : started sys req a u = some r) (hr : sel r = true)
    (hc : 3 ≤ (strobes sys (u + 1) t).card) (hlat : (strobes sys (u + 1) t).card ≤ lat r) :
    ∃ y, y < t ∧ NthAfter fs 2 u y ∧ (x t).int = src y := by
  have hcross : Crossing sys fs (slaveOp req a sel) (fun t => (x t).lwb) fun t => (x t).sync := by
    apply h.crossing hsel
    · simp [hx₀, reset]
    · simp [hx₀, reset]
    · intro t
      rw [hx]
      rfl
    · intro t
      rw [hx]
      rfl
  refine hcross.read_fresh (o := fun t => (x t).int) hp ?_ (h.starts_iff.mpr ⟨r, hu, hr⟩) hc ?_
  · intro t
    rw [hx]
    rfl
  · intro y huy hyt
    by_contra hs
    obtain ⟨q, hq, -⟩ := h.starts_iff.mp (by simpa using hs)
    rw [h.started_eq_none hu huy ((card_strobes_mono hyt.le).trans hlat)] at hq
    cases hq

/-- **A register waits for its word from the start of a read up to the edge before the
acknowledge**, and for no other read. -/
theorem inProgress_busy (hsel : ∀ r, sel r = true → 1 ≤ lat r)
    (hu : started sys req a u = some r) (hut : u < t)
    (hc : (strobes sys (u + 1) t).card ≤ lat r) :
    (x t).lwbInProgress = (sel r && decide (0 < lat r - (strobes sys (u + 1) t).card)) := by
  refine (h.invariant (x := x) (I := fun s => s.lwbInProgress = false)
    (B := fun r j s => s.lwbInProgress = (sel r && decide (0 < j))) ?_ ?_ ?_ ?_ ?_ ?_ t).2
      u r hu hut hc
  · simp [hx₀, reset]
  · intro t hs
    simp [hx, tick, slaveMove, hs]
  · intro t hs hm hI
    simp [hx, tick, slaveMove, hs, hm, hI]
  · intro t r hs hm hI
    cases hr : sel r with
    | false => simp [hx, tick, slaveMove, hs, hm, hI, hr]
    | true =>
      have hpos : 0 < lat r := hsel r hr
      simp [hx, tick, slaveMove, hs, hm, hr, hpos]
  · intro t r j hs hj hd hm hB
    have hbit : (a t).sreg.getLsbD 1 = decide (j = 0) := by
      simp [hd, AckGen.due, BitVec.getLsbD_twoPow, hj]
    cases hr : sel r with
    | false => simp [hx, tick, slaveMove, hs, hm, hB, hr]
    | true => simp [hx, tick, slaveMove, hs, hm, hB, hr, hbit, Nat.pos_iff_ne_zero]
  · intro t r hs hm hB
    simp [hx, tick, slaveMove, hs, hm, hB]

end AsyncRo

/-! ## Pulses -/

/-- A bit that gives a pulse for each write. -/
structure Monostable where
  int : Bool
  dly0 : Bool
  out : Bool
  deriving DecidableEq, Repr

/-- The bit in reset. -/
def Monostable.reset : Monostable := ⟨false, false, false⟩

/-- One tick: a start that `sel` selects loads the bit, the acknowledge clears it, and each edge of
the bus clock passes on its rising edge. -/
def Monostable.tick (sel val : ρ → Bool) (x : Monostable) (m : Option (Move ρ)) : Monostable where
  int := match m with
    | some (.start r) => rwExec sel val x.int r
    | some .finish => false
    | _ => x.int
  dly0 := if m.isSome then x.int else x.dly0
  out := if m.isSome then x.int && !x.dly0 else x.out

namespace Monostable

variable {lat : ρ → ℕ} {sys : ℕ → Bool} {req : ℕ → Option ρ} {a : ℕ → AckGen n}
variable {sel val : ρ → Bool} {x : ℕ → Monostable} {t u : ℕ} {r : ρ}

variable (h : Slave lat sys req a) (hx₀ : x 0 = .reset)
  (hx : ∀ t, x (t + 1) = (x t).tick sel val (slaveMove (sys t) (req t) (a t)))

include h hx₀ hx

/-- The bit is down while the slave is free, and up through the requests that write a one to it. -/
theorem int_spec (t : ℕ) :
    (a t = .idle → (x t).int = false) ∧ ∀ u r, started sys req a u = some r → u < t →
      (strobes sys (u + 1) t).card ≤ lat r → (x t).int = (sel r && val r) := by
  apply h.invariant (x := x) (I := fun s => s.int = false)
    (B := fun r _ s => s.int = (sel r && val r))
  · simp [hx₀, reset]
  · intro t hs
    simp [hx, tick, slaveMove, hs]
  · intro t hs hm hI
    simp [hx, tick, slaveMove, hs, hm, hI]
  · intro t r hs hm hI
    cases hr : sel r with
    | false => simp [hx, tick, slaveMove, hs, hm, hI, hr, rwExec]
    | true => simp [hx, tick, slaveMove, hs, hm, hr, rwExec]
  · intro t r j hs _ _ hm hB
    simp [hx, tick, slaveMove, hs, hm, hB]
  · intro t r hs hm _
    simp [hx, tick, slaveMove, hs, hm]

omit h in
theorem dly0_eq (t : ℕ) : (x t).dly0 = sampled sys false (fun t => (x t).int) t := by
  apply eq_sampled (r := fun t => (x t).dly0) (by simp [hx₀, reset])
  intro t
  by_cases hs : sys t = true <;> simp [hx, tick, slaveMove, hs]

omit h in
theorem out_eq_sampled (t : ℕ) :
    (x t).out = sampled sys false (fun t => (x t).int && !(x t).dly0) t := by
  apply eq_sampled (r := fun t => (x t).out) (by simp [hx₀, reset])
  intro t
  by_cases hs : sys t = true <;> simp [hx, tick, slaveMove, hs]

/-- A bit that is up was written. -/
theorem exists_write_of_int (ht : (x t).int = true) :
    ∃ u r, started sys req a u = some r ∧ sel r = true ∧ val r = true ∧ u < t ∧
      (strobes sys (u + 1) t).card ≤ lat r := by
  rcases h.idle_or_due t with hi | ⟨j, hj, hd⟩
  · rw [(int_spec h hx₀ hx t).1 hi] at ht
    cases ht
  · obtain ⟨u, r, hu, hut, hc⟩ := h.exists_started hj hd
    rw [(int_spec h hx₀ hx t).2 u r hu hut (by omega), Bool.and_eq_true] at ht
    exact ⟨u, r, hu, ht.1, ht.2, hut, by omega⟩

/-- **Each write of a one gives one pulse**, of one cycle, one edge after the write. -/
theorem out_iff :
    (x t).out = true ↔ ∃ u r, started sys req a u = some r ∧ sel r = true ∧ val r = true ∧ u < t ∧
      (strobes sys (u + 1) t).card = 1 := by
  rw [out_eq_sampled hx₀ hx]
  constructor
  · intro ht
    cases hy : latest sys t with
    | none => simp [sampled_of_none hy] at ht
    | some y =>
      rw [sampled_of_latest hy, Bool.and_eq_true, Bool.not_eq_true', dly0_eq hx₀ hx] at ht
      obtain ⟨u, r, hu, hsr, hvr, huy, hc⟩ := exists_write_of_int h hx₀ hx ht.1
      have hyt := (latest_eq_some_iff.mp hy).1
      refine ⟨u, r, hu, hsr, hvr, by omega, ?_⟩
      apply card_strobes_eq_succ_iff.mpr
      refine ⟨y, hy, huy, ?_⟩
      -- an edge between the write and `y` would have seen the bit up
      rw [card_strobes_eq_zero_iff]
      intro q hq
      by_contra hqu
      have hqy := (latest_eq_some_iff.mp hq).1
      rw [sampled_of_latest hq, (int_spec h hx₀ hx q).2 u r hu (by omega)
        ((card_strobes_mono hqy.le).trans hc), hsr, hvr] at ht
      exact Bool.false_ne_true ht.2.symm
  · rintro ⟨u, r, hu, hsr, hvr, hut, hc⟩
    obtain ⟨y, hy, huy, hcy⟩ := card_strobes_eq_succ_iff.mp hc
    obtain ⟨hsu, hi, -⟩ := h.started_eq_some.mp hu
    have hlast : latest sys y = some u := by
      apply latest_eq_some_iff.mpr
      refine ⟨huy, hsu, ?_⟩
      intro q huq hqy
      by_contra hsq
      have := card_strobes_pos (v := sys) (by simpa using hsq) (show u + 1 ≤ q from huq) hqy
      omega
    rw [sampled_of_latest hy, dly0_eq hx₀ hx, sampled_of_latest hlast,
      (int_spec h hx₀ hx u).1 hi, (int_spec h hx₀ hx y).2 u r hu huy (by omega), hsr, hvr]
    rfl

end Monostable

end Clocked
