import Fusa.Agent.Phases
import Fusa.Agent.Turns

/-! How many tasks the loop over `cpu_tasks` reaches, and how many requests it gives to the
CPU. -/
namespace Fusa.Agent
open List Nat

/-- Every hot sub-slot with requests gets a new credit. -/
def AllDecided (Q : TaskQueue) (cfg : ServerConfig) (t : Tally) : Prop :=
  ∀ task ∈ cpuTasks cfg t, task.slot ∈ (skewedDecisions Q cfg t).map (·.idx)

def chosen (Q : TaskQueue) (cfg : ServerConfig) (t : Tally) : List UInt64 :=
  ((skewedDecisions Q cfg t).filter (·.credit = 1)).map fun d => t.counters d.idx

def reqSum (l : List UInt64) : ℕ := (l.map (·.toNat)).sum

section
variable (Q : TaskQueue) (cfg : ServerConfig) (t : Tally)

theorem phaseTurns_slots : (phaseTurns Q cfg (takesTask t) t).map (·.task.slot) =
    ((phaseTurns Q cfg (takesTask t) t).map (·.decision (!cfg.paEnabled))).map (·.idx) := by
  rw [map_map]
  rfl

theorem length_cpuTasks_of_allDecided (h : AllDecided Q cfg t) : (cpuTasks cfg t).length ≤ 1 := by
  have hsub : ((cpuTasks cfg t).map (·.slot)).Subperm
      ((phaseTurns Q cfg (takesTask t) t).map (·.task.slot)) := by
    apply (nodup_cpuTasks cfg t).subperm
    intro c hc
    obtain ⟨task, htask, rfl⟩ := mem_map.mp hc
    have hd := h task htask
    rw [skewedDecisions_eq, map_append, ← phaseTurns_slots] at hd
    rcases mem_append.mp hd with hcold | hturn
    · exact absurd hc (cold_disjoint_cpuTasks _ cfg t hcold)
    · exact hturn
  have hle := hsub.length_le
  have hlen := (trace_phaseTurns Q cfg (takesTask t) t).two_mul_length_le
  rw [length_map, length_map] at hle
  omega

theorem phaseTurns_ne_nil (takes : (ℕ → UInt64) → CpuTask → Bool) (h : cpuTasks cfg t ≠ []) :
    phaseTurns Q cfg takes t ≠ [] := by
  have hpos : 0 < (cpuTasks cfg t).length := length_pos_iff.mpr h
  unfold phaseTurns
  obtain ⟨n, hn⟩ : ∃ n, (cpuTasks cfg t).length = n + 1 := ⟨_, (succ_pred hpos.ne').symm⟩
  obtain ⟨⟨task, rest⟩, hpop⟩ := Option.isSome_iff_exists.mp (Q.isSome_pop h)
  have hg : 0 < (cpuTasks cfg t).length ∧
      ¬ (cfg.paEnabled = true ∧ (0 : UInt64) > cfg.totalCpuCap) := by
    refine ⟨hpos, fun hc => ?_⟩
    exact UInt64.not_lt.mpr UInt64.zero_le hc.2
  rw [hn]
  unfold turns
  rw [if_pos hg, hpop]
  simp only
  split <;> exact cons_ne_nil _ _

/-- The loop compares a counter it raises with a queue it shrinks, so it decides on half of the
tasks; all are decided when there is one at most. -/
theorem allDecided_of_fits_iff :
    (reqSum (chosen Q cfg t) ≤ cfg.totalCpuCap.toNat → AllDecided Q cfg t) ↔
      (cpuTasks cfg t).length ≤ 1 ∨ cfg.totalCpuCap.toNat < reqSum (chosen Q cfg t) := by
  constructor
  · intro h
    rw [or_iff_not_imp_right, not_lt]
    exact fun hfit => length_cpuTasks_of_allDecided Q cfg t (h hfit)
  · intro h hfit task htask
    have hlen := h.resolve_right (not_lt.mpr hfit)
    have hne := phaseTurns_ne_nil Q cfg t (takesTask t) (ne_nil_of_mem htask)
    obtain ⟨turn, hturn⟩ := exists_mem_of_ne_nil _ hne
    have hmem := (trace_phaseTurns Q cfg (takesTask t) t).mem_tasks hturn
    have heq : turn.task = task := by
      obtain ⟨x, hx⟩ := length_eq_one_iff.mp
        (le_antisymm hlen (length_pos_of_mem htask))
      rw [hx, mem_singleton] at hmem htask
      rw [hmem, htask]
    rw [skewedDecisions_eq, map_append, ← phaseTurns_slots, ← heq]
    exact mem_append_right _ (mem_map_of_mem hturn)

theorem filter_skewedDecisions : (skewedDecisions Q cfg t).filter (·.credit = 1) =
    ((phaseTurns Q cfg (takesTask t) t).map (·.decision (!cfg.paEnabled))).filter
      (·.credit = 1) := by
  have hcold : ((List.range maxCounterNum).flatMap
      (coldDecisions (!cfg.paEnabled) (overThres cfg t) t)).filter (·.credit = 1) = [] := by
    rw [filter_eq_nil_iff]
    intro d hd
    obtain ⟨i, -, hd⟩ := mem_flatMap.mp hd
    simp [(coldDecisions_decision hd).1]
  rw [skewedDecisions_eq, filter_append, hcold, nil_append]

theorem chosen_eq : chosen Q cfg t =
    ((phaseTurns Q cfg (takesTask t) t).filter (·.taken)).map (·.task.reqCnt) := by
  have hreq : ∀ turn ∈ phaseTurns Q cfg (takesTask t) t,
      turn.task.reqCnt = t.counters turn.task.slot := fun turn hturn =>
    (mem_cpuTasks ((trace_phaseTurns Q cfg (takesTask t) t).mem_tasks hturn)).2.2
  unfold chosen
  rw [filter_skewedDecisions, filter_map, map_map]
  have hf : (fun d : Decision => decide (d.credit = 1)) ∘ Turn.decision (!cfg.paEnabled) =
      (·.taken) := by
    funext turn
    cases h : turn.taken <;> simp [Turn.decision, h]
  rw [hf]
  apply map_congr_left
  intro turn hturn
  exact (hreq turn (mem_of_mem_filter hturn)).symm

end

/-- Only the last task taken can exceed the capacity, and no sum wraps. -/
theorem Trace.taken_le {Q : TaskQueue} {cap : UInt64} {takes : (ℕ → UInt64) → CpuTask → Bool}
    {t : Tally} {i : ℕ} {tasks : List CpuTask} {onloadNums : ℕ → UInt64} {attempts : UInt64}
    {l : List Turn} (h : Trace Q cap takes t i tasks onloadNums attempts l)
    (hcap : cap.toNat < 2 ^ 63) (hreq : ∀ task ∈ tasks, task.reqCnt = t.counters task.slot)
    (hle : attempts = 0 ∨ ∀ task ∈ tasks, task.reqCnt ≤ attempts) (hne : l.filter (·.taken) ≠ []) :
    attempts.toNat + reqSum (((l.filter (·.taken)).map (·.task.reqCnt)).dropLast) ≤ cap.toNat := by
  induction h with
  | stop => exact absurd rfl hne
  | skip _ _ hpop _ _ ih =>
    have hsub := (Q.perm_pop hpop).subset
    rw [filter_cons_of_neg (by simp)] at hne ⊢
    refine ih (fun x hx => hreq x (hsub (.tail _ hx))) ?_ hne
    rcases hle with h0 | hle
    · exact .inl h0
    · exact .inr fun x hx => hle x (hsub (.tail _ hx))
  | @take i tasks rest onloadNums attempts task l _ hatt hpop _ _ ih =>
    have hsub := (Q.perm_pop hpop).subset
    have hatt : attempts.toNat ≤ cap.toNat := hatt
    rw [filter_cons_of_pos (by simp), map_cons]
    by_cases hl : l.filter (·.taken) = []
    · simpa [hl, reqSum] using hatt
    have hadd : (attempts + t.counters task.slot).toNat = attempts.toNat + task.reqCnt.toNat := by
      have hlt := task.reqCnt.toNat_lt
      have hsum : attempts.toNat + task.reqCnt.toNat < 2 ^ 64 := by
        rcases hle with h0 | hle
        · simpa [h0] using hlt
        · have : task.reqCnt.toNat ≤ attempts.toNat := hle task (hsub (.head _))
          omega
      rw [← hreq task (hsub (.head _)), UInt64.toNat_add, mod_eq_of_lt hsum]
    have hih := ih (fun x hx => hreq x (hsub (.tail _ hx))) (.inr fun x hx => by
      have : x.reqCnt.toNat ≤ task.reqCnt.toNat := Q.le_pop hpop x (hsub (.tail _ hx))
      rw [UInt64.le_iff_toNat_le, hadd]
      omega) hl
    rw [dropLast_cons_of_ne_nil (by simpa using hl)]
    rw [hadd] at hih
    simp only [reqSum, map_cons, sum_cons] at hih ⊢
    omega

/-- Tasks go to the CPU in non-increasing order, and all but the last one fit into its capacity. -/
theorem chosen_within_capacity (Q : TaskQueue) (cfg : ServerConfig) (t : Tally)
    (hcap : cfg.totalCpuCap.toNat < 2 ^ 63) : (chosen Q cfg t).Pairwise (· ≥ ·) ∧
      reqSum (chosen Q cfg t).dropLast ≤ cfg.totalCpuCap.toNat := by
  have htrace := trace_phaseTurns Q cfg (takesTask t) t
  rw [chosen_eq]
  constructor
  · rw [pairwise_map]
    exact htrace.sorted.filter _
  · by_cases hne : (phaseTurns Q cfg (takesTask t) t).filter (·.taken) = []
    · simp [hne, reqSum]
    · have h := htrace.taken_le hcap (fun task htask => (mem_cpuTasks htask).2.2) (.inl rfl) hne
      simpa using h

section
variable (t : Tally)

theorem hotTally_overThres : overThres twoMachines (hotTally t) = 100000 := by
  unfold overThres
  rw [hotTally_reqPerSlot]
  rfl

theorem hotTally_cpuTasks : cpuTasks twoMachines (hotTally t) =
    [⟨200000, 0, 0⟩, ⟨100000, 0, 1⟩] := by
  unfold cpuTasks
  rw [hotTally_overThres, hotTally_tasks]

theorem hotTally_chosen : chosen (MaxQueue.first _) twoMachines (hotTally t) = [200000] := by
  have hl : (phaseTurns (MaxQueue.first _) twoMachines (takesTask (hotTally t)) (hotTally t)).map
      (·.decision (!twoMachines.paEnabled)) = [⟨0, 1, true⟩] := by
    unfold phaseTurns
    rw [← taskLoop_eq, hotTally_cpuTasks]
    exact hotTally_taskLoop t
  unfold chosen
  rw [filter_skewedDecisions, hl]
  have h0 : (hotTally t).counters 0 = 200000 := hotTally_counters t (by decide)
  simpa using h0

end

/-- Slot 0 has two hot sub-slots: the CPU gets the first, and the second is not looked at. -/
theorem not_allDecided_hotTally : twoMachines.paEnabled = false ∧
      reqSum (chosen (MaxQueue.first _) twoMachines (hotTally boot.tally)) ≤
        twoMachines.totalCpuCap.toNat ∧
      ¬ AllDecided (MaxQueue.first _) twoMachines (hotTally boot.tally) := by
  refine ⟨rfl, ?_, fun h => ?_⟩
  · rw [hotTally_chosen]
    decide
  · have hlen := length_cpuTasks_of_allDecided _ _ _ h
    rw [hotTally_cpuTasks] at hlen
    exact absurd hlen (by decide)

/-- One report with three counters of `2 ^ 63` requests and three of `2 ^ 62`, in slots 0 to 2. -/
def hugeTally : Tally where
  scannedCnt := 1
  tmpSlotReq := 0
  counters j :=
    if j < 3 then 0x8000000000000000 else if 512 ≤ j ∧ j < 515 then 0x4000000000000000 else 0
  cCounters _ := 0
  realCounters i := if i < 3 then 0xc000000000000000 else 0
  realCCounters _ := 0
  ttRnicReq := 3 * 0xc000000000000000
  ttCpuReq := 0
  machine _ := ⟨true, 0, 0, 0⟩

def sixTasks : Tally :=
  { hugeTally with
    counters := fun j => if j < 3 then 300000 else if 512 ≤ j ∧ j < 515 then 200000 else 0
    realCounters := fun i => if i < 3 then 500000 else 0
    ttRnicReq := 1500000 }

theorem chosen_within_capacity_sixTasks :
    chosen (MaxQueue.first _) twoMachines sixTasks = [300000, 300000, 300000] ∧
      (chosen (MaxQueue.first _) twoMachines sixTasks).Pairwise (· ≥ ·) ∧
      reqSum (chosen (MaxQueue.first _) twoMachines sixTasks).dropLast ≤
        twoMachines.totalCpuCap.toNat :=
  ⟨by rw [chosen_eq]; decide +kernel, chosen_within_capacity _ _ _ (by decide)⟩

def manyCores : ServerConfig := { twoMachines with coreNum := 3689348814742 }

/-- The second task makes `attempts` wrap to 0, and a third one is taken. -/
theorem not_within_capacity_hugeTally : manyCores.totalCpuCap.toNat <
      reqSum (chosen (MaxQueue.first _) manyCores hugeTally).dropLast := by
  have hc : chosen (MaxQueue.first _) manyCores hugeTally =
      [0x8000000000000000, 0x8000000000000000, 0x8000000000000000] := by
    rw [chosen_eq]
    decide +kernel
  rw [hc]
  decide +kernel

end Fusa.Agent
