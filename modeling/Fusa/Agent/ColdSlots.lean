import Fusa.Agent.Capacity

/-! How many requests the RNIC takes back from the CPU in a slot that is not hot. -/
namespace Fusa.Agent
open List

def cpuCounts (t : Tally) (ds : List Decision) : List UInt64 := ds.map fun d => t.cCounters d.idx

section
variable (saveOld : Bool) (thres : UInt64) (t : Tally) (i : ℕ)

/-- `slot_reset_cnt` after `n` turns of the loop over a cold slot. -/
def slotResetCnt (n : ℕ) : UInt64 := (cpuCounts t (coldLoop saveOld thres t i (List.range n) 0)).sum

theorem coldLoop_append (js ks : List ℕ) (cnt : UInt64) :
    coldLoop saveOld thres t i (js ++ ks) cnt = coldLoop saveOld thres t i js cnt ++
      coldLoop saveOld thres t i ks
        (cnt + (cpuCounts t (coldLoop saveOld thres t i js cnt)).sum) := by
  induction js generalizing cnt with
  | nil => simp [coldLoop, cpuCounts]
  | cons j js ih =>
    simp only [cons_append, coldLoop]
    split
    · simp [ih, cpuCounts, UInt64.add_assoc]
    · exact ih cnt

theorem slotResetCnt_succ (n : ℕ) : slotResetCnt saveOld thres t i (n + 1) =
    if t.cCounters (i + n * maxCounterNum) + slotResetCnt saveOld thres t i n +
      t.realCounters i < thres
    then slotResetCnt saveOld thres t i n + t.cCounters (i + n * maxCounterNum)
    else slotResetCnt saveOld thres t i n := by
  unfold slotResetCnt
  rw [range_succ, coldLoop_append, UInt64.zero_add]
  simp only [coldLoop]
  split
  · simp [cpuCounts, sum_append]
  · simp

theorem slotResetCnt_lt (h : t.realCounters i < thres) (n : ℕ) :
    t.realCounters i + slotResetCnt saveOld thres t i n < thres := by
  induction n with
  | zero => simpa [slotResetCnt, coldLoop, cpuCounts] using h
  | succ n ih =>
    rw [slotResetCnt_succ]
    split
    · rename_i htest
      rwa [UInt64.add_comm, UInt64.add_comm (slotResetCnt ..)]
    · exact ih

theorem cpuCounts_sublist (js : List ℕ) (cnt : UInt64) :
    (cpuCounts t (coldLoop saveOld thres t i js cnt)).Sublist
      ((js.map fun j => i + j * maxCounterNum).map t.cCounters) := by
  have hsub := (coldLoop_sublist saveOld thres t i js cnt).map t.cCounters
  rwa [map_map] at hsub

/-- The `n`-th test adds up requests that the CPU had from this slot. -/
theorem tested_sublist {n : ℕ} (hn : n < slotGranularity) :
    (cpuCounts t (coldLoop saveOld thres t i (List.range n) 0) ++
      [t.cCounters (i + n * maxCounterNum)]).Sublist ((slotCredits i).map t.cCounters) := by
  have hrange := ((range_sublist.mpr hn).map fun j => i + j * maxCounterNum).map t.cCounters
  rw [range_succ, map_append, map_append] at hrange
  exact ((cpuCounts_sublist saveOld thres t i (List.range n) 0).append_right _).trans hrange

end

theorem reqSum_le_of_sublist {l m : List UInt64} (h : l.Sublist m) : reqSum l ≤ reqSum m :=
  (h.map UInt64.toNat).sum_le_sum fun _ _ => Nat.zero_le _

theorem toNat_sum (l : List UInt64) : l.sum.toNat = reqSum l % 2 ^ 64 := by
  induction l with
  | nil => rfl
  | cons x l ih => simp [reqSum, UInt64.toNat_add, ih]

/-- What the RNIC takes back leaves a cold slot cold, and below `2 ^ 63` no sum wraps. -/
theorem coldSlot_stays_cold (cfg : ServerConfig) (t : Tally) (i : ℕ)
    (h : t.realCounters i < overThres cfg t) : t.realCounters i +
        (cpuCounts t (coldDecisions (!cfg.paEnabled) (overThres cfg t) t i)).sum < overThres cfg t ∧
    ((t.realCounters i).toNat < 2 ^ 63 → reqSum ((slotCredits i).map t.cCounters) < 2 ^ 63 →
      (t.realCounters i).toNat +
          reqSum (cpuCounts t (coldDecisions (!cfg.paEnabled) (overThres cfg t) t i)) <
        (overThres cfg t).toNat ∧ ∀ n < slotGranularity, (t.cCounters (i + n * maxCounterNum) +
            slotResetCnt (!cfg.paEnabled) (overThres cfg t) t i n + t.realCounters i).toNat =
          (t.cCounters (i + n * maxCounterNum)).toNat + reqSum (cpuCounts t
              (coldLoop (!cfg.paEnabled) (overThres cfg t) t i (List.range n) 0)) +
            (t.realCounters i).toNat) := by
  have hcold : coldDecisions (!cfg.paEnabled) (overThres cfg t) t i =
      coldLoop (!cfg.paEnabled) (overThres cfg t) t i (List.range slotGranularity) 0 :=
    if_neg (UInt64.not_le.mpr h)
  have hlt := slotResetCnt_lt (!cfg.paEnabled) _ t i h slotGranularity
  rw [hcold]
  refine ⟨hlt, fun hreal hcpu => ⟨?_, fun n hn => ?_⟩⟩
  · have hle := reqSum_le_of_sublist (cpuCounts_sublist (!cfg.paEnabled) (overThres cfg t) t i
      (List.range slotGranularity) 0)
    rw [slotCredits] at hcpu
    rw [UInt64.lt_iff_toNat_lt, UInt64.toNat_add, slotResetCnt, toNat_sum] at hlt
    omega
  · have hle := reqSum_le_of_sublist (tested_sublist (!cfg.paEnabled) (overThres cfg t) t i hn)
    rw [UInt64.toNat_add, UInt64.toNat_add, slotResetCnt, toNat_sum]
    simp only [reqSum, map_append, sum_append, map_singleton, sum_singleton] at hle hcpu ⊢
    omega

/-- Slot 0 has 60000 requests on the RNIC, and 30000 and 20000 of its requests on the CPU. -/
def coldTally : Tally :=
  { hugeTally with
    counters := fun j => if j = 0 then 60000 else 0
    cCounters := fun j => if j = 0 then 30000 else if j = 512 then 20000 else 0
    realCounters := fun i => if i = 0 then 60000 else 0
    realCCounters := fun i => if i = 0 then 50000 else 0
    ttRnicReq := 60000
    ttCpuReq := 50000 }

/-- The RNIC takes the 30000 back and leaves the 20000 to the CPU. -/
theorem coldTally_stays_cold : cpuCounts coldTally (coldDecisions (!twoMachines.paEnabled)
        (overThres twoMachines coldTally) coldTally 0) = 30000 :: List.replicate 14 0 ∧
      (coldTally.realCounters 0).toNat + reqSum (cpuCounts coldTally (coldDecisions
          (!twoMachines.paEnabled) (overThres twoMachines coldTally) coldTally 0)) <
        (overThres twoMachines coldTally).toNat :=
  ⟨by decide,
    ((coldSlot_stays_cold twoMachines coldTally 0 (by decide)).2 (by decide) (by decide)).1⟩

end Fusa.Agent
