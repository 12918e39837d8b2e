import BpmGateware.Clocked.AckSlave

/-!
# FIFOs on one clock

A FIFO with an output register, known by its laws. It is written and read on the same clock; a read
moves the oldest word into the output register, where it stays until the next one. In a run, the
words that were written, numbered in their order, are those taken out and those in the FIFO, and the
output register holds the one whose number is the number of words taken out.

## Main definitions

* `SyncFifo α b`: a FIFO with an output register and a `b`-bit count of its words
* `SyncFifo.count`: the number of words taken out
* `FifoRun`: a FIFO on its clock

## Main results

* `FifoRun.contents_eq`: what is in the FIFO is what was written, less what was taken out
* `FifoRun.q_eq`: the output register holds the word last taken out
* `FifoRun.le_card_takes`: reads take out as many words as there are
-/

namespace Clocked

variable {α : Type}

/-- What a FIFO samples at an edge: a word written or none, and a read or none. -/
structure SyncFifoIn (α : Type) where
  rstN : Bool
  wr : Option α
  rd : Bool

/-- **A FIFO on one clock, with an output register**: it keeps the words in order, a read of an
empty FIFO is ignored, and the count never says more than there is. What becomes of a word written
while it is full is not known. -/
structure SyncFifo (α : Type) (b : ℕ) where
  /-- the registers inside the core -/
  State : Type
  step : State → SyncFifoIn α → State
  full : State → Bool
  isEmpty : State → Bool
  usedw : State → BitVec b
  q : State → α
  /-- the words in the FIFO, oldest first -/
  contents : State → List α
  contents_reset : ∀ s i, i.rstN = false → contents (step s i) = []
  contents_step : ∀ s i, i.rstN = true → (full s = true → i.wr = none) →
    contents (step s i) = (if i.rd then (contents s).tail else contents s) ++ i.wr.toList
  q_read : ∀ s i x l, i.rstN = true → i.rd = true → contents s = x :: l → q (step s i) = x
  q_hold : ∀ s i, i.rstN = true → (i.rd = true → contents s = []) → q (step s i) = q s
  isEmpty_eq : ∀ s, isEmpty s = (contents s).isEmpty
  usedw_le : ∀ s, (usedw s).toNat ≤ (contents s).length

/-- The FIFO of `size` words that keeps them in a list. -/
def SyncFifo.listed (α : Type) (size b : ℕ) : SyncFifo α b where
  State := List α × α
  step s i :=
    if i.rstN = false then ([], s.2)
    else ((if i.rd then s.1.tail else s.1) ++ (if size ≤ s.1.length then [] else i.wr.toList),
      if i.rd then s.1.head?.getD s.2 else s.2)
  full s := decide (size ≤ s.1.length)
  isEmpty s := s.1.isEmpty
  usedw s := BitVec.ofNat b s.1.length
  q s := s.2
  contents s := s.1
  contents_reset _ _ h := by rw [if_pos h]
  contents_step s i h hfull := by
    rw [if_neg (by simp [h])]
    by_cases hs : size ≤ s.1.length
    · rw [hfull (decide_eq_true hs), Option.toList_none, ite_self]
    · rw [if_neg hs]
  q_read s i x l h hrd hs := by
    rw [if_neg (by simp [h]), hrd, if_pos rfl, hs]
    rfl
  q_hold s i h hrd := by
    rw [if_neg (by simp [h])]
    cases hi : i.rd with
    | false => rfl
    | true =>
      rw [hrd hi]
      rfl
  isEmpty_eq _ := rfl
  usedw_le s := by
    rw [BitVec.toNat_ofNat]
    exact Nat.mod_le _ _

namespace SyncFifo

variable {b : ℕ} {F : SyncFifo α b}

/-- A FIFO after an edge in reset. -/
def afterReset (F : SyncFifo α b) (s : F.State) : F.State := F.step s ⟨false, none, false⟩

/-- The edges at which a word is taken out. -/
def takes (f : ℕ → F.State) (rd : ℕ → Bool) (t : ℕ) : Bool := rd t && !F.isEmpty (f t)

/-- The number of words taken out. -/
def count (f : ℕ → F.State) (rd : ℕ → Bool) (t : ℕ) : ℕ := (strobes (takes f rd) 0 t).card

variable {f : ℕ → F.State} {rd : ℕ → Bool} {t x : ℕ}

theorem contents_afterReset (s : F.State) : F.contents (F.afterReset s) = [] :=
  F.contents_reset s _ rfl

theorem count_succ (t : ℕ) :
    count f rd (t + 1) = count f rd t + if takes f rd t then 1 else 0 :=
  card_strobes_succ (Nat.zero_le t)

theorem count_add (htx : t ≤ x) :
    count f rd x = count f rd t + (strobes (takes f rd) t x).card :=
  (card_strobes_add (Nat.zero_le t) htx).symm

theorem card_takes_le : (strobes (takes f rd) t x).card ≤ (strobes rd t x).card := by
  apply Finset.card_le_card
  intro y hy
  simp only [strobes, Finset.mem_filter, takes, Bool.and_eq_true] at hy ⊢
  exact ⟨hy.1, hy.2.1⟩

end SyncFifo

/-! ## The FIFO on its clock -/

/-- **A FIFO on its clock**, empty at first, that is not written while it is full. -/
structure FifoRun {b : ℕ} (F : SyncFifo α b) (sys : ℕ → Bool) (d : ℕ → Option α) (rd : ℕ → Bool)
    (f : ℕ → F.State) : Prop where
  zero : F.contents (f 0) = []
  edge : ∀ t, sys t = true → f (t + 1) = F.step (f t) ⟨true, d t, rd t⟩
  hold : ∀ t, sys t = false → f (t + 1) = f t ∧ d t = none ∧ rd t = false
  not_full : ∀ t, F.full (f t) = true → d t = none

namespace FifoRun

open SyncFifo

variable {b : ℕ} {F : SyncFifo α b} {sys : ℕ → Bool} {d : ℕ → Option α} {rd : ℕ → Bool}
  {f : ℕ → F.State} {t x : ℕ} (h : FifoRun F sys d rd f)

include h

theorem contents_succ (t : ℕ) : F.contents (f (t + 1)) =
    (if rd t then (F.contents (f t)).tail else F.contents (f t)) ++ (d t).toList := by
  cases hs : sys t with
  | false =>
    obtain ⟨hf, hd, hrd⟩ := h.hold t hs
    simp [hf, hd, hrd]
  | true =>
    rw [h.edge t hs]
    exact F.contents_step _ _ rfl (h.not_full t)

theorem q_succ_of_read {y : α} {l : List α} (hrd : rd t = true)
    (hc : F.contents (f t) = y :: l) : F.q (f (t + 1)) = y := by
  cases hs : sys t with
  | false =>
    have hno := (h.hold t hs).2.2
    rw [hrd] at hno
    cases hno
  | true =>
    rw [h.edge t hs]
    exact F.q_read _ _ y l rfl hrd hc

theorem q_succ_of_hold (hc : rd t = true → F.contents (f t) = []) :
    F.q (f (t + 1)) = F.q (f t) := by
  cases hs : sys t with
  | false => rw [(h.hold t hs).1]
  | true =>
    rw [h.edge t hs]
    exact F.q_hold _ _ rfl hc

/-- **What an edge does**: it takes nothing out and leaves the output as it is, or it takes the
oldest word out. -/
theorem edge_cases (t : ℕ) :
    (takes f rd t = false ∧ F.contents (f (t + 1)) = F.contents (f t) ++ (d t).toList ∧
      F.q (f (t + 1)) = F.q (f t) ∧ (rd t = true → F.contents (f t) = [])) ∨
    ∃ y l, takes f rd t = true ∧ rd t = true ∧ F.contents (f t) = y :: l ∧
      F.contents (f (t + 1)) = l ++ (d t).toList ∧ F.q (f (t + 1)) = y := by
  rw [takes, F.isEmpty_eq, h.contents_succ]
  cases hrd : rd t with
  | false =>
    left
    exact ⟨rfl, rfl, h.q_succ_of_hold (by simp [hrd]), by simp⟩
  | true =>
    cases hc : F.contents (f t) with
    | nil =>
      left
      exact ⟨rfl, rfl, h.q_succ_of_hold fun _ => hc, fun _ => rfl⟩
    | cons y l =>
      right
      exact ⟨y, l, rfl, rfl, rfl, rfl, h.q_succ_of_read hrd hc⟩

/-- **What is in the FIFO is what was written, less what was taken out**. -/
theorem contents_eq (t : ℕ) :
    count f rd t ≤ (history d t).length ∧
      F.contents (f t) = (history d t).drop (count f rd t) := by
  induction t with
  | zero => simp [h.zero, history, count, card_strobes_self]
  | succ t ih =>
    obtain ⟨hle, hc⟩ := ih
    rw [count_succ, history_succ, List.length_append]
    rcases h.edge_cases t with ⟨htake, hcs, -⟩ | ⟨y, l, htake, -, hyl, hcs, -⟩
    · rw [htake, if_neg Bool.false_ne_true, Nat.add_zero]
      exact ⟨hle.trans (Nat.le_add_right _ _), by
        rw [hcs, hc, List.drop_append_of_le_length hle]⟩
    · have hlt : count f rd t < (history d t).length := by
        by_contra hge
        rw [hyl, List.drop_of_length_le (Nat.le_of_not_lt hge)] at hc
        cases hc
      have htail : l = (history d t).drop (count f rd t + 1) := by
        rw [← List.tail_drop, ← hc, hyl, List.tail_cons]
      rw [htake, if_pos rfl]
      exact ⟨hlt.trans_le (Nat.le_add_right _ _), by
        rw [hcs, htail, List.drop_append_of_le_length hlt]⟩

/-- **The output register holds the word last taken out**. -/
theorem q_eq {k : ℕ} (hk : count f rd t = k + 1) : (history d t)[k]? = some (F.q (f t)) := by
  induction t with
  | zero => simp [count, card_strobes_self] at hk
  | succ t ih =>
    obtain ⟨hle, hc⟩ := h.contents_eq t
    rw [count_succ] at hk
    rw [history_succ]
    rcases h.edge_cases t with ⟨htake, -, hq, -⟩ | ⟨y, l, htake, -, hyl, -, hq⟩
    · rw [htake, if_neg Bool.false_ne_true, Nat.add_zero] at hk
      rw [hq, List.getElem?_append_left (by omega), ih hk]
    · rw [htake, if_pos rfl, Nat.add_right_cancel_iff] at hk
      have hy : (history d t)[k]? = some y := by
        rw [← hk, ← List.head?_drop, ← hc, hyl, List.head?_cons]
      obtain ⟨hlt, -⟩ := List.getElem?_eq_some_iff.mp hy
      rw [List.getElem?_append_left hlt, hy, hq]

/-- Reads take out as many words as there are, and no more. -/
theorem le_card_takes (htx : t ≤ x) :
    (F.contents (f t)).length ≤ (F.contents (f x)).length + (strobes (takes f rd) t x).card ∧
      min (F.contents (f t)).length (strobes rd t x).card ≤ (strobes (takes f rd) t x).card := by
  induction x, htx using Nat.le_induction with
  | base => simp [card_strobes_self]
  | succ x htx ih =>
    obtain ⟨hlen, hmin⟩ := ih
    rw [card_strobes_succ htx, card_strobes_succ htx]
    rcases h.edge_cases x with ⟨htake, hcs, -, hempty⟩ | ⟨y, l, htake, hrd, hyl, hcs, -⟩
    · rw [htake, hcs, if_neg Bool.false_ne_true, Nat.add_zero, List.length_append]
      refine ⟨by omega, ?_⟩
      by_cases hrd : rd x = true
      · -- an empty FIFO has given all that it had
        rw [hempty hrd, List.length_nil] at hlen
        omega
      · rw [if_neg hrd, Nat.add_zero]
        exact hmin
    · rw [htake, hrd, hcs, if_pos rfl, List.length_append]
      rw [hyl, List.length_cons] at hlen
      omega

/-- While nothing is read, the output stays and the FIFO does not lose words. -/
theorem quiet (htx : t ≤ x) (hno : ∀ y, t ≤ y → y < x → rd y = false) :
    F.q (f x) = F.q (f t) ∧ count f rd x = count f rd t ∧
      (F.contents (f t)).length ≤ (F.contents (f x)).length := by
  induction x, htx using Nat.le_induction with
  | base => exact ⟨rfl, rfl, le_rfl⟩
  | succ x htx ih =>
    obtain ⟨hq, hc, hlen⟩ := ih fun y hy hyx => hno y hy (by omega)
    have hrd := hno x htx (by omega)
    rcases h.edge_cases x with ⟨htake, hcs, hqx, -⟩ | ⟨y, l, -, hrd', -⟩
    · rw [count_succ, htake, hcs, hqx, List.length_append]
      exact ⟨hq, hc, hlen.trans (Nat.le_add_right _ _)⟩
    · rw [hrd] at hrd'
      cases hrd'

end FifoRun

end Clocked
