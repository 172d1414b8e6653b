import Fusa.Lib.Transition
import Fusa.Agent.Tally

/-! The strategies that `server_func` keeps, phase by phase, and the ones it sends. -/
namespace Fusa.Agent
open Transition Report List

/-- The credits of `strategies` and of `old_strategies`, which the application server reads. -/
structure Strategies where
  credit : ℕ → UInt16
  old : ℕ → UInt16

namespace Strategies

def saveOld (d : Decision) (m : Strategies) : Strategies :=
  if d.saveOld then { m with old := Function.update m.old d.idx (m.credit d.idx) } else m

def store (d : Decision) (m : Strategies) : Strategies :=
  { m with credit := Function.update m.credit d.idx d.credit }

def apply (m : Strategies) (d : Decision) : Strategies := (m.saveOld d).store d

def applyAll (ds : List Decision) (m : Strategies) : Strategies := ds.foldl apply m

theorem applyAll_concat_credit (ds : List Decision) (c : ℕ) (v : UInt16) (b : Bool)
    (m : Strategies) : (m.applyAll (ds ++ [⟨c, v, b⟩])).credit c = v := by
  simp [applyAll, apply, store]

end Strategies

/-- The memory of the agent server between two phases, and what it last sent. -/
structure PhaseState where
  tally : Tally
  strategies : Strategies
  uniformStrag : ℕ → UInt16
  sent : ℕ → ℕ → UInt16

/-- The order in which the reports of a phase are scanned, and the reports. -/
structure PhaseInput where
  order : List ℕ
  reports : ℕ → Report

/-- Machines with a uniform load get `uniform_strag` when the load as a whole is skewed. -/
def sendsUniform (cfg : ServerConfig) (plan : Plan) (i : ℕ) : Bool :=
  !plan.isUniform && plan.machineIsUniform i && !cfg.paEnabled

namespace PhaseState

def run (Q : TaskQueue) (cfg : ServerConfig) (s : PhaseState) (a : PhaseInput) : PhaseState :=
  let tally := s.tally.newPhase.scanAll a.order a.reports
  let plan := makePlan Q cfg tally
  let strategies := s.strategies.applyAll plan.decisions
  { tally
    strategies
    uniformStrag := s.uniformStrag
    sent := fun i => if sendsUniform cfg plan i then s.uniformStrag else strategies.credit }

theorem run_sent (Q : TaskQueue) (cfg : ServerConfig) (s : PhaseState) (a : PhaseInput) (i : ℕ) :
    (s.run Q cfg a).sent i =
      if sendsUniform cfg (makePlan Q cfg (s.tally.newPhase.scanAll a.order a.reports)) i then
        s.uniformStrag else (s.run Q cfg a).strategies.credit := rfl

end PhaseState

/-- Each machine is scanned once, in any order. -/
def phases (Q : TaskQueue) (cfg : ServerConfig) : System PhaseState PhaseInput where
  start s := s.strategies = ⟨fun _ => 0, fun _ => 0⟩ ∧ s.uniformStrag = fun _ => 0
  next s a := if a.order.Perm (List.range cfg.nrMachine) then some (s.run Q cfg a) else none

section
variable (n : ℕ) (reports : ℕ → Report)

def avgSlotReq : UInt64 :=
  ((List.range n).map fun i => (reports i).total + (reports i).onload).sum / 512

def totalSlotReq (k : ℕ) : UInt64 :=
  ((List.range n).map fun i => slotReq (reports i).counters groupSize k).sum +
    ((List.range n).map fun i => slotReq (reports i).cCounters groupSize k).sum

def Skewed : Prop := ∃ k < maxCounterNum, avgSlotReq n reports * 2 ≤ totalSlotReq n reports k

instance : Decidable (Skewed n reports) :=
  decidable_of_iff (∃ k ∈ List.range maxCounterNum, avgSlotReq n reports * 2 ≤
    totalSlotReq n reports k) (by simp [Skewed])

end

section
variable {n : ℕ} {order : List ℕ} (reports : ℕ → Report) (t : Tally)

theorem reqPerSlot_scanAll (hp : order.Perm (List.range n)) :
    (t.newPhase.scanAll order reports).reqPerSlot = avgSlotReq n reports := by
  unfold Tally.reqPerSlot avgSlotReq
  rw [Tally.scanAll_ttReq, (hp.map _).sum_eq]
  simp [Tally.newPhase]

theorem isUniform_scanAll (hn : 0 < n) (hp : order.Perm (List.range n)) :
    (t.newPhase.scanAll order reports).isUniform = false ↔ Skewed n reports := by
  have ho : order ≠ [] := by
    intro h
    have hl := hp.length_eq
    rw [h, length_range, length_nil] at hl
    omega
  have hk : ∀ k, (t.newPhase.scanAll order reports).realCounters k +
      (t.newPhase.scanAll order reports).realCCounters k = totalSlotReq n reports k := by
    intro k
    have h := Tally.scanAll_newPhase_real t order reports ho k
    rw [h.1, h.2, (hp.map _).sum_eq, (hp.map _).sum_eq, totalSlotReq]
  unfold Tally.isUniform Skewed
  simp [hk, reqPerSlot_scanAll reports t hp]

theorem machineIsUniform_scanAll (hp : order.Perm (List.range n)) {i : ℕ} (hi : i < n) :
    (t.newPhase.scanAll order reports).machineIsUniform false i = true ↔ (reports i).Uniform := by
  have hm : i ∈ order := hp.mem_iff.mpr (mem_range.mpr hi)
  rw [Tally.machineIsUniform_iff, Tally.scanAll_machine, if_pos hm]
  have hs : ((reports i).stat groupSize).isUniform = true := rfl
  rw [hs, Uniform, eq_self_iff_true, and_true]

end

/-- A machine of a skewed phase whose own load is uniform. -/
def UniformAmongSkewed (cfg : ServerConfig) (reports : ℕ → Report) (i : ℕ) : Prop :=
  cfg.threshold ≠ 0 ∧ cfg.threshold ≠ rnicThreshold ∧
    Skewed cfg.nrMachine reports ∧ (reports i).Uniform
deriving Decidable

section
variable {Q : TaskQueue} {cfg : ServerConfig} {s t : PhaseState} {a : PhaseInput}

theorem phases_next (Q : TaskQueue) (s : PhaseState)
    (hp : a.order.Perm (List.range cfg.nrMachine)) :
    (phases Q cfg).next s a = some (s.run Q cfg a) := by
  simp [phases, hp]

theorem sendsUniform_makePlan (Q : TaskQueue) (hpa : cfg.paEnabled = false)
    (hag : cfg.agentEnabled = true)
    (hp : a.order.Perm (List.range cfg.nrMachine)) (u : Tally) {i : ℕ} (hi : i < cfg.nrMachine) :
    sendsUniform cfg (makePlan Q cfg (u.newPhase.scanAll a.order a.reports)) i = true ↔
      UniformAmongSkewed cfg a.reports i := by
  have hn : 0 < cfg.nrMachine := by omega
  unfold sendsUniform makePlan UniformAmongSkewed
  by_cases h1 : cfg.threshold = rnicThreshold
  · simp [h1]
  by_cases h0 : cfg.threshold = 0
  · rw [h0] at h1
    simp [hag, h0, h1]
  have hu := isUniform_scanAll a.reports u hn hp
  have hm := machineIsUniform_scanAll a.reports u hp hi
  rw [← hm, ← hu]
  simp [hag, h1, h0, hpa]

/-- The last decision of a phase does not reach a machine that gets `uniform_strag`. -/
theorem run_sent_ne {i c : ℕ} {v : UInt16} {b : Bool} {ds : List Decision} (s : PhaseState)
    (hs : sendsUniform cfg (makePlan Q cfg (s.tally.newPhase.scanAll a.order a.reports)) i = true)
    (hd : (makePlan Q cfg (s.tally.newPhase.scanAll a.order a.reports)).decisions =
      ds ++ [⟨c, v, b⟩]) (hne : s.uniformStrag c ≠ v) :
    (s.run Q cfg a).sent i c ≠ (s.run Q cfg a).strategies.credit c := by
  unfold PhaseState.run
  simp only [hs, if_true, hd]
  rwa [Strategies.applyAll_concat_credit]

theorem uniformStrag_eq_zero (h : (phases Q cfg).Reachable s) : s.uniformStrag = fun _ => 0 := by
  apply System.Reachable.invariant _ _ h
  · intro s hs
    exact hs.2
  · intro s a t hs hn
    simp only [phases, Option.ite_none_right_eq_some, Option.some.injEq] at hn
    rwa [← hn.2]

/-- The application server's strategy is sent, but a uniform machine gets zero in a skewed load. -/
theorem phase_sent (hpa : cfg.paEnabled = false) (hag : cfg.agentEnabled = true)
    (hr : (phases Q cfg).Reachable s) (hn : (phases Q cfg).next s a = some t) {i : ℕ}
    (hi : i < cfg.nrMachine) (c : ℕ) :
    t.sent i c = if UniformAmongSkewed cfg a.reports i then 0 else t.strategies.credit c := by
  simp only [phases, Option.ite_none_right_eq_some, Option.some.injEq] at hn
  have hs := sendsUniform_makePlan Q hpa hag hn.1 s.tally hi
  have hu := uniformStrag_eq_zero hr
  rw [← hn.2]
  unfold PhaseState.run
  by_cases h : UniformAmongSkewed cfg a.reports i
  · simp only [hs.mpr h, h, if_true, hu]
  · simp only [mt hs.mp h, h, if_false]
    rfl

end

namespace Report

theorem slotReq_add (v w : ℕ → UInt64) (n k : ℕ) :
    slotReq (v + w) n k = slotReq v n k + slotReq w n k := by
  unfold slotReq
  rw [← Finset.sum_add_distrib]
  apply Finset.sum_congr rfl
  intro j _
  by_cases h : j % maxCounterNum = k <;> simp [h]

theorem slotReq_single (a : ℕ) (x : UInt64) (n k : ℕ) :
    slotReq (Pi.single a x) n k = if a < n ∧ a % maxCounterNum = k then x else 0 := by
  unfold slotReq
  by_cases h : a < n
  · rw [Finset.sum_eq_single_of_mem a (Finset.mem_range.mpr h)]
    · simp [h]
    · intro j _ hj
      simp [hj]
  · rw [Finset.sum_eq_zero]
    · simp [h]
    · intro j hj
      have hj : j < n := Finset.mem_range.mp hj
      have : j ≠ a := by omega
      simp [this]

theorem busiest_zero (n : ℕ) : busiest 0 n = (0, 0) := by
  induction n with
  | zero => rfl
  | succ n ih => simp [busiest, ih]

def idle : Report := ⟨0, 0⟩

theorem stat_idle (n : ℕ) : idle.stat n = ⟨true, 0, 0, 0⟩ := by
  unfold stat idle
  rw [busiest_zero]
  simp

theorem uniform_idle : idle.Uniform := by
  unfold Uniform
  rw [stat_idle]
  decide

def hot : Report := ⟨Pi.single 0 200000 + Pi.single 512 100000, 0⟩

theorem slotReq_zero (n k : ℕ) : slotReq 0 n k = 0 := by simp [slotReq]

theorem total_hot : hot.total = 300000 := by
  unfold total hot
  simp only [Pi.add_apply, Finset.sum_add_distrib]
  simp [groupSize, maxCounterNum, slotGranularity]

theorem slotReq_hot (k : ℕ) : slotReq hot.counters groupSize k = if k = 0 then 300000 else 0 := by
  unfold hot
  rw [slotReq_add, slotReq_single, slotReq_single]
  by_cases h : k = 0
  · subst h
    rfl
  · simp [maxCounterNum, h, Ne.symm h]

end Report

def twoMachines : ServerConfig := ⟨2, 4, 100000, true, false⟩

def hotAndIdle : PhaseInput := ⟨[0, 1], fun i => if i = 1 then hot else idle⟩

section
variable (t : Tally)

def hotTally : Tally := t.newPhase.scanAll hotAndIdle.order hotAndIdle.reports

theorem hotTally_realCounters (k : ℕ) :
    (hotTally t).realCounters k = if k = 0 then 300000 else 0 := by
  have h := (Tally.scanAll_newPhase_real t [0, 1] hotAndIdle.reports (by simp) k).1
  have ht : (hotTally t).realCounters k = _ := h
  rw [ht, map_cons, map_cons, map_nil, sum_cons, sum_cons, sum_nil]
  have h0 : slotReq (hotAndIdle.reports 0).counters groupSize k = 0 := slotReq_zero groupSize k
  have h1 : slotReq (hotAndIdle.reports 1).counters groupSize k = _ := slotReq_hot k
  rw [h0, h1, zero_add, add_zero]

theorem hotTally_reqPerSlot : (hotTally t).reqPerSlot = 585 := by
  unfold Tally.reqPerSlot hotTally
  rw [Tally.scanAll_ttReq]
  have ho : hotAndIdle.order = [0, 1] := rfl
  have h0 : (hotAndIdle.reports 0).total + (hotAndIdle.reports 0).onload = 0 := by
    simp [hotAndIdle, total, onload, idle]
  have h1 : (hotAndIdle.reports 1).total + (hotAndIdle.reports 1).onload = 300000 := by
    have : hot.onload = 0 := by simp [onload, hot]
    simp [hotAndIdle, total_hot, this]
  simp [ho, h0, h1, Tally.newPhase]

theorem hotTally_counters {k : ℕ} (hk : k < groupSize) :
    (hotTally t).counters k = hot.counters k := by
  have h := (Tally.scanAll_newPhase_counters t [0, 1] hotAndIdle.reports (by simp) hk).1
  exact h.trans (by simp [hotAndIdle, idle])

theorem hotTally_tasks : (List.range maxCounterNum).flatMap (hotTasks 100000 (hotTally t)) =
    [⟨200000, 0, 0⟩, ⟨100000, 0, 1⟩] := by
  have hr : List.range maxCounterNum = 0 :: (List.range 511).map Nat.succ := range_succ_eq_map
  have hrest : ((List.range 511).map Nat.succ).flatMap (hotTasks 100000 (hotTally t)) = [] := by
    rw [flatMap_eq_nil_iff]
    intro i hi
    apply hotTasks_of_lt
    have hi : i ≠ 0 := by
      intro h
      simp [h] at hi
    rw [hotTally_realCounters, if_neg hi]
    decide
  rw [hr, flatMap_cons, hrest, append_nil]
  unfold hotTasks
  rw [hotTally_realCounters, if_pos rfl, if_pos (by decide)]
  rw [filterMap_congr (g := fun j => if hot.counters (0 + j * maxCounterNum) > 0 then
    some ⟨hot.counters (0 + j * maxCounterNum), 0, j⟩ else none)]
  · rfl
  · intro j hj
    have hj : 0 + j * maxCounterNum < groupSize := by
      have : j < 16 := mem_range.mp hj
      unfold maxCounterNum groupSize maxCounterNum slotGranularity
      omega
    rw [hotTally_counters t hj]

theorem hotTally_taskLoop : taskLoop (MaxQueue.first _) twoMachines (hotTally t) 2 0
    [⟨200000, 0, 0⟩, ⟨100000, 0, 1⟩]
    (fun i => (hotTally t).realCounters i - (hotTally t).reqPerSlot) 0 = [⟨0, 1, true⟩] := by
  have hp : (MaxQueue.first fun task : CpuTask => task.reqCnt.toNat).pop
      [⟨200000, 0, 0⟩, ⟨100000, 0, 1⟩] = some (⟨200000, 0, 0⟩, [⟨100000, 0, 1⟩]) := rfl
  have ht : takesTask (hotTally t) (fun i => (hotTally t).realCounters i -
      (hotTally t).reqPerSlot) ⟨200000, 0, 0⟩ = true := by
    have h : (200000 : UInt64) < (hotTally t).realCounters 0 - (hotTally t).reqPerSlot := by
      rw [hotTally_realCounters, hotTally_reqPerSlot]
      decide
    unfold takesTask
    rw [decide_eq_true h, Bool.true_or]
  unfold taskLoop
  simp only [hp, ht]
  simp [twoMachines, taskLoop, CpuTask.slot]

theorem hotTally_decisions : ∃ ds,
    (makePlan (MaxQueue.first _) twoMachines (hotTally t)).decisions = ds ++ [⟨0, 1, true⟩] := by
  have ho : overThres twoMachines (hotTally t) = 100000 := by
    unfold overThres
    rw [hotTally_reqPerSlot]
    rfl
  refine ⟨(List.range maxCounterNum).flatMap (coldDecisions true 100000 (hotTally t)), ?_⟩
  rw [makePlan_decisions _ _ rfl rfl (by decide) (by decide)]
  unfold skewedDecisions
  simp only [ho, hotTally_tasks]
  rw [length_cons, length_singleton, hotTally_taskLoop, twoMachines, Bool.not_false]

end

theorem uniformAmongSkewed_hotAndIdle : UniformAmongSkewed twoMachines hotAndIdle.reports 0 := by
  have ha : avgSlotReq 2 hotAndIdle.reports = 585 := by
    let t : Tally := ⟨0, 0, 0, 0, 0, 0, 0, 0, fun _ => ⟨true, 0, 0, 0⟩⟩
    rw [← reqPerSlot_scanAll hotAndIdle.reports t (.refl _)]
    exact hotTally_reqPerSlot _
  have h0 : slotReq (hotAndIdle.reports 0).counters groupSize 0 = 0 := slotReq_zero groupSize 0
  have h1 : slotReq (hotAndIdle.reports 1).counters groupSize 0 = 300000 := slotReq_hot 0
  have hc : ∀ i, slotReq (hotAndIdle.reports i).cCounters groupSize 0 = 0 := by
    intro i
    by_cases h : i = 1
    · subst h
      exact slotReq_zero groupSize 0
    · simp [hotAndIdle, h, idle, slotReq_zero]
  have ht : totalSlotReq 2 hotAndIdle.reports 0 = 300000 := by
    simp [totalSlotReq, range_succ, h0, h1, hc]
  constructor
  · decide
  constructor
  · decide
  constructor
  · refine ⟨0, by decide, ?_⟩
    show avgSlotReq 2 hotAndIdle.reports * 2 ≤ totalSlotReq 2 hotAndIdle.reports 0
    rw [ha, ht]
    decide
  · exact uniform_idle

def boot : PhaseState :=
  ⟨⟨0, 0, 0, 0, 0, 0, 0, 0, fun _ => ⟨true, 0, 0, 0⟩⟩, ⟨fun _ => 0, fun _ => 0⟩, fun _ => 0,
    fun _ _ => 0⟩

theorem twoMachines_pos : 0 < twoMachines.nrMachine := by decide

theorem hotAndIdle_order : hotAndIdle.order.Perm (List.range twoMachines.nrMachine) :=
  List.Perm.refl [0, 1]

theorem phase_sent_hotAndIdle :
    (boot.run (MaxQueue.first _) twoMachines hotAndIdle).sent 0 0 = 0 := by
  have h := phase_sent rfl rfl (.start ⟨rfl, rfl⟩) (phases_next (MaxQueue.first _) boot
    hotAndIdle_order) twoMachines_pos 0
  rwa [if_pos uniformAmongSkewed_hotAndIdle] at h

/-- The application server has counter 0 on the CPU, the idle machine on the RNIC. -/
theorem not_sent_hotAndIdle : twoMachines.paEnabled = false ∧ twoMachines.agentEnabled = true ∧
      ∃ s, (phases (MaxQueue.first _) twoMachines).Reachable s ∧
        ∃ i < twoMachines.nrMachine, ∃ c < groupSize, s.sent i c ≠ s.strategies.credit c := by
  obtain ⟨ds, hd⟩ := hotTally_decisions boot.tally
  have hs := (sendsUniform_makePlan (MaxQueue.first _) rfl rfl hotAndIdle_order boot.tally
    twoMachines_pos).mpr uniformAmongSkewed_hotAndIdle
  have hne := run_sent_ne boot hs hd (by decide)
  exact ⟨rfl, rfl, _, .step _ (.start ⟨rfl, rfl⟩) (phases_next _ boot hotAndIdle_order), 0,
    twoMachines_pos, 0, by decide, hne⟩

end Fusa.Agent
