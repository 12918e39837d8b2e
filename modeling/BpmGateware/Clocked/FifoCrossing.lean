import BpmGateware.Clocked.AsyncFifo
import Mathlib.Order.Monotone.Basic

/-!
# A FIFO with an output register

A FIFO between two clocks that is read whenever it shows a word; a register holds the word last
read. The crossing moves words without looking at them, so it can be run on the ticks at which the
words were written in place of the words: what the register holds is the word of the tick that the
other run has there.

## Main definitions

* `FifoCrossing α`, `FifoCrossing.tick`: the FIFO and its output register, on two clocks
* `FifoCrossing.map`: the crossing with its words replaced
* `FifoCrossing.tags`: the run on ticks

## Main results

* `FifoCrossing.map_tick`: the crossing does not look at the words
* `FifoCrossing.exists_source`: the register holds one of the words written, and never goes back
-/

namespace Clocked

variable {α β : Type}

/-- A write at an edge of the write clock, or none. Whether a full FIFO takes the word is left open,
`overrun` says it. -/
def AsyncFifo.write (depth : ℕ) (overrun : Bool) (f : AsyncFifo α) (d : Option α) : AsyncFifo α :=
  d.elim f fun a => if overrun then ⟨f.ready, f.pending ++ [a]⟩ else f.push depth a

/-- The FIFO with its words replaced. -/
def AsyncFifo.map (g : α → β) (f : AsyncFifo α) : AsyncFifo β :=
  ⟨f.ready.map g, f.pending.map g⟩

/-- A FIFO, the register of its output and its valid. -/
structure FifoCrossing (α : Type) where
  fifo : AsyncFifo α
  q : α
  valid : Bool
  deriving DecidableEq, Repr

namespace FifoCrossing

/-- The crossing at power-up. -/
def powerUp (z : α) : FifoCrossing α := ⟨.nil, z, false⟩

/-- One tick: a word written or none, and an edge of the read clock after which `k` more words are
visible, or none. Both see the FIFO as it was. -/
def tick (depth : ℕ) (overrun : Bool) (x : FifoCrossing α) (d : Option α) :
    Option ℕ → FifoCrossing α
  | none => { x with fifo := x.fifo.write depth overrun d }
  | some k =>
    if x.fifo.isEmpty then ⟨(x.fifo.write depth overrun d).sync k, x.q, false⟩
    else ⟨(x.fifo.write depth overrun d).pop.sync k, x.fifo.ready.head?.getD x.q, true⟩

section Tick

variable {depth k : ℕ} {overrun : Bool} {x : FifoCrossing α} {d : Option α}

theorem tick_of_empty (h : x.fifo.isEmpty = true) :
    x.tick depth overrun d (some k) =
      ⟨(x.fifo.write depth overrun d).sync k, x.q, false⟩ := if_pos h

theorem tick_of_not_empty (h : ¬ x.fifo.isEmpty = true) :
    x.tick depth overrun d (some k) =
      ⟨(x.fifo.write depth overrun d).pop.sync k, x.fifo.ready.head?.getD x.q, true⟩ := if_neg h

end Tick

/-- The crossing with its words replaced. -/
def map (g : α → β) (x : FifoCrossing α) : FifoCrossing β := ⟨x.fifo.map g, g x.q, x.valid⟩

/-! ## The words are not looked at -/

section Map

variable (g : α → β)

theorem map_write (depth : ℕ) (overrun : Bool) (f : AsyncFifo α) (d : Option α) :
    (f.write depth overrun d).map g = (f.map g).write depth overrun (d.map g) := by
  cases d with
  | none => rfl
  | some a =>
    cases overrun with
    | true => simp [AsyncFifo.write, AsyncFifo.map]
    | false =>
      simp only [AsyncFifo.write, Option.map_some, Option.elim_some, AsyncFifo.push, AsyncFifo.Full,
        AsyncFifo.contents, AsyncFifo.map, List.length_append, List.length_map, Bool.false_eq_true,
        if_false]
      split
      · rfl
      · simp

theorem map_sync (f : AsyncFifo α) (k : ℕ) : (f.sync k).map g = (f.map g).sync k := by
  simp [AsyncFifo.sync, AsyncFifo.map, List.map_take, List.map_drop]

theorem map_pop (f : AsyncFifo α) : f.pop.map g = (f.map g).pop := by
  simp [AsyncFifo.pop, AsyncFifo.map, List.map_tail]

/-- **The crossing does not look at the words**. -/
theorem map_tick (depth : ℕ) (overrun : Bool) (x : FifoCrossing α) (d : Option α) (rd : Option ℕ) :
    (x.tick depth overrun d rd).map g = (x.map g).tick depth overrun (d.map g) rd := by
  cases rd with
  | none => simp only [tick, map, map_write]
  | some k =>
    have hempty : (x.fifo.map g).isEmpty = x.fifo.isEmpty := by
      simp [AsyncFifo.isEmpty, AsyncFifo.map]
    simp only [tick, map, hempty]
    split
    · simp only [map_sync, map_write]
    · have hhead : g (x.fifo.ready.head?.getD x.q) =
          (x.fifo.map g).ready.head?.getD (g x.q) := by
        cases hr : x.fifo.ready <;> simp [AsyncFifo.map, hr]
      simp only [map_sync, map_pop, map_write, hhead]

end Map

/-! ## The words stay in order -/

section Order

variable (depth : ℕ) (overrun : Bool) (x : FifoCrossing α) (d : Option α) (rd : Option ℕ)

theorem contents_write :
    (x.fifo.write depth overrun d).contents = x.fifo.contents ∨
      (x.fifo.write depth overrun d).contents = x.fifo.contents ++ d.toList := by
  cases d with
  | none => exact .inl rfl
  | some a =>
    cases overrun with
    | true => exact .inr (List.append_assoc _ _ _).symm
    | false =>
      by_cases h : x.fifo.Full depth
      · left
        simp [AsyncFifo.write, AsyncFifo.push, h]
      · exact .inr (x.fifo.contents_push h)

theorem ready_write : (x.fifo.write depth overrun d).ready = x.fifo.ready := by
  cases d with
  | none => rfl
  | some a =>
    cases overrun with
    | true => rfl
    | false =>
      simp only [AsyncFifo.write, Option.elim_some, AsyncFifo.push, Bool.false_eq_true, if_false]
      split <;> rfl

/-- The word read and those in the FIFO, with the one that a tick writes. -/
theorem tick_sublist :
    List.Sublist ((x.tick depth overrun d rd).q :: (x.tick depth overrun d rd).fifo.contents)
      (x.q :: x.fifo.contents ++ d.toList) := by
  have hw : List.Sublist (x.fifo.write depth overrun d).contents (x.fifo.contents ++ d.toList) := by
    rcases contents_write depth overrun x d with h | h
    · rw [h]
      exact List.sublist_append_left _ _
    · rw [h]
  cases rd with
  | none => exact hw.cons_cons x.q
  | some k =>
    by_cases he : x.fifo.isEmpty = true
    · rw [tick_of_empty he]
      simp only [AsyncFifo.contents_sync]
      exact hw.cons_cons x.q
    · obtain ⟨a, ha, hc⟩ := (x.fifo.write depth overrun d).exists_contents_eq_cons (by
        simpa [AsyncFifo.isEmpty, ready_write] using he)
      rw [ready_write] at ha
      rw [tick_of_not_empty he]
      simp only [AsyncFifo.contents_sync, ha, Option.getD_some]
      rw [← hc]
      exact hw.trans (List.sublist_cons_self _ _)

theorem tick_q_mem : (x.tick depth overrun d rd).q ∈ x.q :: x.fifo.contents := by
  cases rd with
  | none => exact List.mem_cons_self
  | some k =>
    by_cases he : x.fifo.isEmpty = true
    · rw [tick_of_empty he]
      exact List.mem_cons_self
    · rw [tick_of_not_empty he]
      cases hr : x.fifo.ready with
      | nil => simp
      | cons a l => simp [AsyncFifo.contents, hr]

end Order

/-! ## The source of a word -/

section Source

variable {depth : ℕ} {o : ℕ → Bool} {d : ℕ → Option α} {k : ℕ → Option ℕ}
  {x : ℕ → FifoCrossing α} {z : α}

/-- The run on ticks: what is written at tick `t` is `t + 1`, and `0` stands for the power-up. -/
def tags (depth : ℕ) (o : ℕ → Bool) (d : ℕ → Option α) (k : ℕ → Option ℕ) :
    ℕ → FifoCrossing ℕ
  | 0 => .powerUp 0
  | t + 1 => (tags depth o d k t).tick depth (o t) ((d t).map fun _ => t + 1) (k t)

/-- The word that a tick stands for. -/
def wordAt (z : α) (d : ℕ → Option α) : ℕ → α
  | 0 => z
  | y + 1 => (d y).getD z

theorem eq_map_tags (hx₀ : x 0 = .powerUp z)
    (hx : ∀ t, x (t + 1) = (x t).tick depth (o t) (d t) (k t)) (t : ℕ) :
    x t = (tags depth o d k t).map (wordAt z d) := by
  induction t with
  | zero => exact hx₀
  | succ t ih =>
    have hwe : ((d t).map fun _ => t + 1).map (wordAt z d) = d t := by
      cases h : d t <;> simp [wordAt, h]
    rw [hx, ih, tags, map_tick, hwe]

/-- The ticks in a crossing, oldest first, are ticks with a write, and come in order. -/
structure Ordered (d : ℕ → Option α) (t : ℕ) (l : List ℕ) : Prop where
  pairwise : l.Pairwise (· < ·)
  le : ∀ y ∈ l, y ≤ t
  written : ∀ y, y + 1 ∈ l → (d y).isSome = true

theorem ordered_tags (t : ℕ) :
    Ordered d t ((tags depth o d k t).q :: (tags depth o d k t).fifo.contents) := by
  induction t with
  | zero =>
    refine ⟨by simp [tags, powerUp], ?_, ?_⟩
    · simp [tags, powerUp]
    · simp [tags, powerUp]
  | succ t ih =>
    have hsub := tick_sublist depth (o t) (tags depth o d k t) ((d t).map fun _ => t + 1)
      (k t)
    -- what is written now is later than everything in the crossing
    have hnew : Ordered d (t + 1) ((tags depth o d k t).q ::
        (tags depth o d k t).fifo.contents ++ ((d t).map fun _ => t + 1).toList) := by
      cases hw : d t with
      | none =>
        rw [Option.map_none, Option.toList_none, List.append_nil]
        exact ⟨ih.pairwise, fun y hy => (ih.le y hy).trans (Nat.le_succ t), ih.written⟩
      | some a =>
        rw [Option.map_some, Option.toList_some]
        refine ⟨?_, ?_, ?_⟩
        · rw [List.pairwise_append]
          refine ⟨ih.pairwise, List.pairwise_singleton _ _, ?_⟩
          intro y hy b hb
          rw [List.mem_singleton.mp hb]
          exact Nat.lt_succ_of_le (ih.le y hy)
        · intro y hy
          rcases List.mem_append.mp hy with hy | hy
          · exact (ih.le y hy).trans (Nat.le_succ t)
          · exact (List.mem_singleton.mp hy).le
        · intro y hy
          rcases List.mem_append.mp hy with hy | hy
          · exact ih.written y hy
          · rw [Nat.succ.inj (List.mem_singleton.mp hy), hw]
            rfl
    exact ⟨hnew.pairwise.sublist hsub, fun y hy => hnew.le y (hsub.subset hy),
      fun y hy => hnew.written y (hsub.subset hy)⟩

/-- A read takes a later word. -/
theorem tags_q_lt {t j : ℕ} (hk : k t = some j)
    (he : ¬ (tags depth o d k t).fifo.isEmpty = true) :
    (tags depth o d k t).q < (tags depth o d k (t + 1)).q := by
  have hord : Ordered d t ((tags depth o d k t).q :: (tags depth o d k t).fifo.contents) :=
    ordered_tags t
  obtain ⟨a, ha, hc⟩ := (tags depth o d k t).fifo.exists_contents_eq_cons (by
    simpa [AsyncFifo.isEmpty] using he)
  rw [tags, hk, tick_of_not_empty he]
  simp only [ha, Option.getD_some]
  apply List.rel_of_pairwise_cons hord.pairwise
  rw [hc]
  exact List.mem_cons_self

/-- **The register holds one of the words written, and never goes back**: the words that it holds
along a run come from ticks in order, each of them a tick with a write, and each read takes a later
one. -/
theorem exists_source (hx₀ : x 0 = .powerUp z)
    (hx : ∀ t, x (t + 1) = (x t).tick depth (o t) (d t) (k t)) :
    ∃ src : ℕ → ℕ, Monotone src ∧
      (∀ t j, k t = some j → ¬ (x t).fifo.isEmpty = true → src t < src (t + 1)) ∧ ∀ t, src t ≤ t ∧
        ((src t = 0 ∧ (x t).q = z) ∨ ∃ y, src t = y + 1 ∧ d y = some (x t).q) := by
  refine ⟨fun t => (tags depth o d k t).q, ?_, ?_, ?_⟩
  · apply monotone_nat_of_le_succ
    intro t
    have hmem := tick_q_mem depth (o t) (tags depth o d k t) ((d t).map fun _ => t + 1) (k t)
    rcases List.mem_cons.mp hmem with h | h
    · exact h.ge
    · exact (List.rel_of_pairwise_cons (ordered_tags t).pairwise h).le
  · intro t j hk he
    apply tags_q_lt hk
    rw [eq_map_tags hx₀ hx t] at he
    simpa [map, AsyncFifo.isEmpty, AsyncFifo.map] using he
  · intro t
    have hord : Ordered d t ((tags depth o d k t).q :: (tags depth o d k t).fifo.contents) :=
      ordered_tags t
    refine ⟨hord.le _ List.mem_cons_self, ?_⟩
    have hq : (x t).q = wordAt z d (tags depth o d k t).q := by
      rw [eq_map_tags hx₀ hx t]
      rfl
    rw [hq]
    cases hs : (tags depth o d k t).q with
    | zero => exact .inl ⟨hs, rfl⟩
    | succ y =>
      right
      refine ⟨y, hs, ?_⟩
      have hw := hord.written y (by rw [hs]; exact List.mem_cons_self)
      obtain ⟨a, ha⟩ := Option.isSome_iff_exists.mp hw
      simp [wordAt, ha]

end Source

end FifoCrossing

end Clocked
