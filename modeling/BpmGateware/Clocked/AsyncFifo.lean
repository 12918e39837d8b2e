import Mathlib.Data.List.Infix
import Mathlib.Tactic.Common

/-!
# Asynchronous FIFOs

A FIFO between two clocks: words are written in one domain and become visible in the other after
a number of read edges that the synchroniser of the instance decides. The words between the two
are the contents of the FIFO; writing appends to them, reading takes the oldest away, and a word
becoming visible leaves them as they are.

## Main definitions

* `AsyncFifo α`: the words the read side sees, and those still on their way
* `push`, `sync`, `pop`: a write, some words becoming visible, a read

## Main results

* `contents_push`, `contents_sync`: what a write and a synchroniser do to the contents
* `exists_contents_eq_cons`: a FIFO that is not empty shows its oldest word
* `prefix_zip_of_append`: two FIFOs read together deliver a prefix of the pairing
-/

namespace Clocked

/-- The words in a FIFO, oldest first: those visible at the read side, then the others. -/
structure AsyncFifo (α : Type) where
  ready : List α
  pending : List α
  deriving DecidableEq, Repr

namespace AsyncFifo

variable {α : Type} (f : AsyncFifo α)

/-- A FIFO without words. -/
def nil : AsyncFifo α := ⟨[], []⟩

/-- All the words in the FIFO, oldest first. -/
def contents : List α := f.ready ++ f.pending

/-- The empty flag of the read side. -/
def isEmpty : Bool := f.ready.isEmpty

/-- All `depth` places are taken. -/
def Full (depth : ℕ) : Prop := depth ≤ f.contents.length

instance (depth : ℕ) : Decidable (f.Full depth) := inferInstanceAs (Decidable (_ ≤ _))

/-- A write; a full FIFO ignores it. -/
def push (depth : ℕ) (x : α) : AsyncFifo α :=
  if f.Full depth then f else ⟨f.ready, f.pending ++ [x]⟩

/-- The next `k` words become visible at the read side. -/
def sync (k : ℕ) : AsyncFifo α := ⟨f.ready ++ f.pending.take k, f.pending.drop k⟩

/-- A read; an empty FIFO ignores it. -/
def pop : AsyncFifo α := ⟨f.ready.tail, f.pending⟩

@[simp] theorem contents_nil : (nil : AsyncFifo α).contents = [] := rfl

theorem contents_push {depth : ℕ} {x : α} (h : ¬ f.Full depth) :
    (f.push depth x).contents = f.contents ++ [x] := by
  simp [push, h, contents]

@[simp] theorem contents_sync (k : ℕ) : (f.sync k).contents = f.contents := by
  simp [sync, contents]

theorem exists_contents_eq_cons (h : f.isEmpty = false) :
    ∃ x, f.ready.head? = some x ∧ f.contents = x :: f.pop.contents := by
  obtain ⟨ready, pending⟩ := f
  cases ready with
  | nil => simp [isEmpty] at h
  | cons x xs => exact ⟨x, rfl, rfl⟩

end AsyncFifo

/-! ## Reading two streams together -/

section Zip

variable {α β : Type}

/-- Pairs that are taken off the front of both lists are a prefix of their pairing. -/
theorem prefix_zip_of_append {p : List (α × β)} {l a : List α} {m b : List β}
    (hl : l = p.map Prod.fst ++ a) (hm : m = p.map Prod.snd ++ b) : p <+: l.zip m := by
  -- both lists begin with as many elements as there are pairs, so the pairing splits there
  rw [hl, hm, List.zip_append (by simp), List.zip_map']
  simp

/-- Longer lists have a longer pairing. -/
theorem zip_prefix_zip {l l' : List α} {m m' : List β} (hl : l <+: l') (hm : m <+: m') :
    l.zip m <+: l'.zip m' := by
  induction l generalizing l' m m' with
  | nil => simp
  | cons x xs ih =>
    cases m with
    | nil => simp
    | cons y ys =>
      obtain ⟨a, rfl⟩ := hl
      obtain ⟨b, rfl⟩ := hm
      simpa using ih (List.prefix_append xs a) (List.prefix_append ys b)

end Zip

end Clocked
