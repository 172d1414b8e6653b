import Fusa.Agent.Phases

/-! What `machine_max_req` is the maximum of. -/
namespace Fusa.Agent
open Report Nat Finset

def IsLargest (f : ℕ → UInt64) (n : ℕ) (m : UInt64) : Prop := (∀ k < n, f k ≤ m) ∧ ∃ k < n, f k = m

theorem IsLargest.eq_iff {f g : ℕ → UInt64} {n k : ℕ} {m : UInt64} (h : IsLargest f n m) :
    IsLargest g k m ↔ (∀ i < k, ∃ j < n, g i ≤ f j) ∧ ∀ j < n, ∃ i < k, f j ≤ g i := by
  obtain ⟨hle, a, ha, hm⟩ := h
  constructor
  · rintro ⟨hg, b, hb, hgb⟩
    constructor
    · intro i hi
      exact ⟨a, ha, hm ▸ hg i hi⟩
    · intro j hj
      exact ⟨b, hb, hgb ▸ hle j hj⟩
  · rintro ⟨hgf, hfg⟩
    have hg : ∀ i < k, g i ≤ m := by
      intro i hi
      obtain ⟨j, hj, hij⟩ := hgf i hi
      exact UInt64.le_trans hij (hle j hj)
    obtain ⟨b, hb, hab⟩ := hfg a ha
    exact ⟨hg, b, hb, UInt64.le_antisymm (hg b hb) (hm ▸ hab)⟩

def windowStart (k : ℕ) : ℕ := if k = 0 then 0 else k * slotGranularity + 1

/-- The entries that the `k`-th comparison sums, after entry `(k + 1) * 16`: at first 17. -/
def window (v : ℕ → UInt64) (k : ℕ) : UInt64 :=
  ∑ j ∈ Finset.Ico (windowStart k) ((k + 1) * slotGranularity + 1), v j

def flushes (n : ℕ) : ℕ := (n - 1) / slotGranularity

theorem flushes_of_end {j : ℕ} (h : j ≠ 0 ∧ j % slotGranularity = 0) :
    flushes (j + 1) = flushes j + 1 ∧ j = (flushes j + 1) * slotGranularity := by
  unfold flushes slotGranularity at *
  omega

theorem flushes_of_not_end {j : ℕ} (h : ¬ (j ≠ 0 ∧ j % slotGranularity = 0)) :
    flushes (j + 1) = flushes j ∧ windowStart (flushes j) ≤ j := by
  unfold windowStart flushes slotGranularity at *
  split <;> omega

/-- What `busiest` is after the first `n` entries. -/
structure Windows (v : ℕ → UInt64) (n : ℕ) : Prop where
  sum : (busiest v n).1 = ∑ j ∈ Finset.Ico (windowStart (flushes n)) n, v j
  le : ∀ k < flushes n, window v k ≤ (busiest v n).2
  attained : flushes n = 0 ∧ (busiest v n).2 = 0 ∨ ∃ k < flushes n, window v k = (busiest v n).2

section
variable {v : ℕ → UInt64} {j : ℕ}

theorem Windows.flush (h : Windows v j) (hend : j ≠ 0 ∧ j % slotGranularity = 0) :
    Windows v (j + 1) := by
  obtain ⟨hf, hj⟩ := flushes_of_end hend
  have hstart : windowStart (flushes j) ≤ j := by
    unfold windowStart
    unfold slotGranularity at hj ⊢
    split <;> omega
  have hw : (busiest v j).1 + v j = window v (flushes j) := by
    unfold window
    rw [h.sum, ← hj, sum_Ico_succ_top hstart]
  have hb : busiest v (j + 1) = (0, if window v (flushes j) > (busiest v j).2 then
      window v (flushes j) else (busiest v j).2) := by
    rw [← hw]
    simp only [busiest, if_pos hend]
  have hs : windowStart (flushes (j + 1)) = j + 1 := by
    rw [hf, windowStart, if_neg (succ_ne_zero _), ← hj]
  have hsum : (busiest v (j + 1)).1 =
      ∑ i ∈ Finset.Ico (windowStart (flushes (j + 1))) (j + 1), v i := by
    rw [hb, hs, Finset.Ico_self, sum_empty]
  by_cases hgt : window v (flushes j) > (busiest v j).2
  · have htop : (busiest v (j + 1)).2 = window v (flushes j) := by rw [hb, if_pos hgt]
    refine ⟨hsum, fun k hk => ?_, .inr ⟨flushes j, by omega, htop.symm⟩⟩
    rw [hf] at hk
    rw [htop]
    rcases Nat.lt_succ_iff_lt_or_eq.mp hk with hk | rfl
    · exact UInt64.le_trans (h.le k hk) (UInt64.le_of_lt hgt)
    · exact UInt64.le_refl _
  · have htop : (busiest v (j + 1)).2 = (busiest v j).2 := by rw [hb, if_neg hgt]
    refine ⟨hsum, fun k hk => ?_, .inr ?_⟩
    · rw [hf] at hk
      rw [htop]
      rcases Nat.lt_succ_iff_lt_or_eq.mp hk with hk | rfl
      · exact h.le k hk
      · exact UInt64.not_lt.mp hgt
    · rw [htop, hf]
      rcases h.attained with ⟨h0, hz⟩ | ⟨k, hk, hk'⟩
      · refine ⟨0, succ_pos _, ?_⟩
        rw [h0, hz] at hgt
        rw [hz]
        exact UInt64.le_antisymm (UInt64.not_lt.mp hgt) UInt64.zero_le
      · exact ⟨k, lt_succ_of_lt hk, hk'⟩

theorem Windows.keep (h : Windows v j) (hend : ¬ (j ≠ 0 ∧ j % slotGranularity = 0)) :
    Windows v (j + 1) := by
  obtain ⟨hf, hstart⟩ := flushes_of_not_end hend
  have hb : busiest v (j + 1) = ((busiest v j).1 + v j, (busiest v j).2) := by
    simp only [busiest, if_neg hend]
  constructor
  · rw [hb, hf, sum_Ico_succ_top hstart, h.sum]
  · rw [hb, hf]
    exact h.le
  · rw [hb, hf]
    exact h.attained

end

theorem windows (v : ℕ → UInt64) (n : ℕ) : Windows v n := by
  induction n with
  | zero => exact ⟨rfl, fun k hk => absurd hk (not_lt_zero k), .inl ⟨rfl, rfl⟩⟩
  | succ j ih =>
    by_cases hend : j ≠ 0 ∧ j % slotGranularity = 0
    · exact ih.flush hend
    · exact ih.keep hend

theorem busiest_isLargest (v : ℕ → UInt64) : IsLargest (window v) 511 (busiest v groupSize).2 := by
  have h := windows v groupSize
  have hf : flushes groupSize = 511 := by decide
  constructor
  · intro k hk
    exact h.le k (hf ▸ hk)
  · rcases h.attained with ⟨h0, -⟩ | hk
    · rw [hf] at h0
      cases h0
    · exact hf ▸ hk

theorem stat_maxReq (r : Report) (n : ℕ) : (r.stat n).maxReq = (busiest r.counters n).2 := rfl

/-- `machine_max_req` is the busiest slot's count exactly when no slot tops all windows, or back. -/
theorem maxReq_isLargest_iff {n i : ℕ} {order : List ℕ} (t : Tally) (reports : ℕ → Report)
    (hp : order.Perm (List.range n)) (hi : i < n) :
    IsLargest (slotReq (reports i).counters groupSize) maxCounterNum
        ((t.newPhase.scanAll order reports).machine i).maxReq ↔ (∀ s < maxCounterNum, ∃ k < 511,
        slotReq (reports i).counters groupSize s ≤ window (reports i).counters k) ∧
      ∀ k < 511, ∃ s < maxCounterNum,
        window (reports i).counters k ≤ slotReq (reports i).counters groupSize s := by
  rw [Tally.scanAll_machine, if_pos (hp.mem_iff.mpr (List.mem_range.mpr hi)), stat_maxReq]
  exact (busiest_isLargest _).eq_iff

/-- 100 requests for counter 0 and `x` for counter `a`. -/
def twoCounters (a : ℕ) (x : UInt64) : Report := ⟨Pi.single 0 100 + Pi.single a x, 0⟩

theorem slotReq_twoCounters {a : ℕ} {x : UInt64} (ha : a < groupSize) (h0 : a % maxCounterNum ≠ 0)
    (s : ℕ) : slotReq (twoCounters a x).counters groupSize s =
      if s = 0 then 100 else if a % maxCounterNum = s then x else 0 := by
  have hg : 0 < groupSize := by decide
  unfold twoCounters
  rw [slotReq_add, slotReq_single, slotReq_single]
  by_cases hs : s = 0
  · simp [hs, h0, hg]
  · simp [hs, Ne.symm hs, ha]

/-- Counter 600 is in slot 88 and far from counter 0. -/
theorem maxReq_isLargest_farCounters :
    IsLargest (slotReq (twoCounters 600 50).counters groupSize) maxCounterNum
      ((boot.tally.newPhase.scanAll [0, 1] fun _ => twoCounters 600 50).machine 0).maxReq := by
  have hslot := slotReq_twoCounters (a := 600) (x := 50) (by decide) (by decide)
  apply (maxReq_isLargest_iff (n := 2) boot.tally (fun _ => twoCounters 600 50) (.refl [0, 1])
    (by decide)).mpr
  constructor
  · intro s _
    refine ⟨0, by decide, ?_⟩
    rw [hslot]
    split_ifs <;> decide +kernel
  · intro k _
    refine ⟨0, by decide, ?_⟩
    rw [hslot, window, twoCounters]
    simp only [Pi.add_apply, sum_add_distrib, sum_pi_single', mem_Ico]
    by_cases hk : k = 0
    · subst hk
      decide
    · have h0 : ¬ windowStart k ≤ 0 := by simp [windowStart, hk]
      rw [if_neg fun h => h0 h.1]
      split_ifs <;> decide

/-- Two counters in one window: the machine seems to have twice the requests of its busiest slot. -/
theorem not_maxReq_neighbours :
    ¬ IsLargest (slotReq (twoCounters 1 100).counters groupSize) maxCounterNum
      ((boot.tally.newPhase.scanAll [0, 1] fun _ => twoCounters 1 100).machine 0).maxReq := by
  rw [Tally.scanAll_machine, if_pos (by decide), stat_maxReq]
  intro h
  obtain ⟨s, -, hs⟩ := h.2
  have hle := (busiest_isLargest (twoCounters 1 100).counters).1 0 (by decide)
  have hw : window (twoCounters 1 100).counters 0 = 200 := by decide +kernel
  have hslot : slotReq (twoCounters 1 100).counters groupSize s ≤ 100 := by
    rw [slotReq_twoCounters (by decide) (by decide)]
    split_ifs <;> decide
  rw [← hs, hw] at hle
  exact absurd (UInt64.le_trans hle hslot) (by decide)

end Fusa.Agent
