import BpmGateware.Clocked.Stretch

/-!
# Streams that are read together

Several streams are written into queues of their own, and one strobe reads all the queues when each
of them shows a word. The words of one number are a set; it is complete when the last of the streams
has written its word. If complete sets come slowly enough for the latency of the queues, every set
is read in time, the strobes are apart, and no queue holds more than one set that is complete.

All of this is about numbers of words: those written, those visible, and those read.

## Main definitions

* `Complete n k t`: by cycle `t` every stream has its word number `k`
* `Paced sep wr`: sets become complete at least `sep` cycles apart
* `Shown lat wr vis`: a word is visible `lat` cycles after it is written
* `ReadTogether vis rd t`: the strobe comes exactly when all queues show a word

## Main results

* `Paced.read_within`: a complete set is read before the latency is over
* `Paced.spaced`: strobes are apart
* `Paced.room`: there is at most one complete set in the queues
-/

namespace Clocked

variable {ι : Type} {wr vis : ι → ℕ → ℕ} {rd : ℕ → Bool} {lat sep t : ℕ}

/-- By cycle `t` every stream has its word number `k`, where `n` counts the words. -/
def Complete (n : ι → ℕ → ℕ) (k t : ℕ) : Prop := ∀ b, k < n b t

/-- **The pace of the streams**: when a set is complete, the one before it was so for at least
`sep` cycles. -/
def Paced (sep : ℕ) (wr : ι → ℕ → ℕ) : Prop :=
  ∀ k t, Complete wr (k + 1) t → ∃ y, y + sep ≤ t ∧ Complete wr k y

/-- **The queues**: no word is visible before it is written, and all of them are `lat` cycles
later. -/
structure Shown (lat : ℕ) (wr vis : ι → ℕ → ℕ) : Prop where
  le : ∀ b t, vis b t ≤ wr b t
  within : ∀ b t, wr b t ≤ vis b (t + lat)

/-- Before cycle `t`, the strobe comes exactly when every queue shows a word that is not read. -/
def ReadTogether (vis : ι → ℕ → ℕ) (rd : ℕ → Bool) (t : ℕ) : Prop :=
  ∀ x < t, rd x = true ↔ Complete vis (edges rd x) x

theorem Complete.of_le {n : ι → ℕ → ℕ} {j k : ℕ} (h : Complete n k t) (hjk : j ≤ k) :
    Complete n j t := fun b => hjk.trans_lt (h b)

theorem Shown.complete (hs : Shown lat wr vis) {k : ℕ} (h : Complete vis k t) :
    Complete wr k t := fun b => (h b).trans_le (hs.le b t)

theorem Shown.complete_within (hs : Shown lat wr vis) {k : ℕ} (h : Complete wr k t) :
    Complete vis k (t + lat) := fun b => (h b).trans_le (hs.within b t)

theorem ReadTogether.of_le (h : ReadTogether vis rd t) {x : ℕ} (hx : x ≤ t) :
    ReadTogether vis rd x := fun y hy => h y (by omega)

theorem edges_of_rd {x : ℕ} (h : rd x = true) : edges rd (x + 1) = edges rd x + 1 := by
  rw [edges_succ, if_pos h]

/-- Every number below the number of strobes is that of a strobe. -/
theorem exists_rd_of_lt {k : ℕ} (h : k < edges rd t) : ∃ x < t, rd x = true ∧ edges rd x = k := by
  induction t with
  | zero => simp at h
  | succ t ih =>
    rcases Nat.lt_or_ge k (edges rd t) with hlt | hge
    · obtain ⟨x, hx, hrd, hk⟩ := ih hlt
      exact ⟨x, by omega, hrd, hk⟩
    · by_cases hrd : rd t = true
      · rw [edges_of_rd hrd] at h
        exact ⟨t, by omega, hrd, by omega⟩
      · rw [edges_succ, if_neg hrd] at h
        omega

namespace Paced

/-- **A complete set is read in time**: by induction on its number. The set before it is read when
this one becomes visible, so the strobe that comes then is its own. -/
theorem read_within (hp : Paced sep wr) (hsep : 0 < sep) (hs : Shown lat wr vis)
    (hr : ReadTogether vis rd t) {k y : ℕ} (hk : Complete wr k y) (hy : y + lat < t) :
    k < edges rd t := by
  induction k generalizing y t with
  | zero =>
    by_contra hno
    have hzero : edges rd (y + lat) = 0 := by
      have := edges_mono (v := rd) hy.le
      omega
    have hrd : rd (y + lat) = true := (hr _ hy).mpr (by rw [hzero]; exact hs.complete_within hk)
    have hle := edges_mono (v := rd) hy
    rw [edges_of_rd hrd] at hle
    omega
  | succ k ih =>
    obtain ⟨z, hzy, hz⟩ := hp k y hk
    have hbefore : k < edges rd (y + lat) := ih (hr.of_le hy.le) hz (by omega)
    have hle := edges_mono (v := rd) hy
    rcases Nat.eq_or_lt_of_le hbefore with heq | hlt
    · have hrd : rd (y + lat) = true := (hr _ hy).mpr (by rw [← heq]; exact hs.complete_within hk)
      rw [edges_of_rd hrd] at hle
      omega
    · have := edges_mono (v := rd) hy.le
      omega

/-- **Strobes are apart** by what the pace exceeds the latency. -/
theorem spaced {n : ℕ} (hp : Paced (n + lat) wr) (hs : Shown lat wr vis)
    (hr : ∀ t, ReadTogether vis rd t) : Spaced n rd := by
  intro u x hu hux hxn
  by_contra hx
  have hx' : rd x = true := by simpa using hx
  have hlater : edges rd u + 1 ≤ edges rd x := by
    have := edges_mono (v := rd) hux
    rwa [edges_of_rd hu] at this
  have hcomplete := hs.complete ((hr (x + 1) x (by omega)).mp hx')
  obtain ⟨y, hyx, hy⟩ := hp _ x (hcomplete.of_le hlater)
  exact (hp.read_within (by omega) hs (hr u) hy (by omega)).false

/-- **At most one complete set is in the queues**. -/
theorem room (hp : Paced sep wr) (hsep : lat + 2 ≤ sep) (hs : Shown lat wr vis)
    (hr : ReadTogether vis rd t) : ¬ Complete wr (edges rd t + 1) (t + 1) := by
  intro hk
  obtain ⟨y, hyt, hy⟩ := hp _ _ hk
  exact (hp.read_within (by omega) hs hr hy (by omega)).false

end Paced

end Clocked
