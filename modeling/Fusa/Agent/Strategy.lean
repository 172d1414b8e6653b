import Fusa.Common
import Fusa.Lib.Queues

/-! How `server_func` tallies the clients' reports and makes a strategy from them. -/
namespace Fusa.Agent
open Function

/-- Counters of a report, and credits of a strategy. -/
def groupSize : ℕ := maxCounterNum * slotGranularity

def rnicThreshold : UInt64 := 10000000

def cpuCapacity : UInt64 := 2500000

/-- Capacity of the RNIC with PCIe atomics, halved for the additional RDMA read. -/
def rnicCapWPa : UInt64 := 14000000 / 2

structure ServerConfig where
  nrMachine : ℕ
  coreNum : UInt64
  threshold : UInt64
  agentEnabled : Bool
  paEnabled : Bool

def ServerConfig.totalCpuCap (cfg : ServerConfig) : UInt64 := cpuCapacity * cfg.coreNum

/-- What a client sends in a phase: its requests to the RNIC and to the CPU, by counter. -/
structure Report where
  counters : ℕ → UInt64
  cCounters : ℕ → UInt64

structure MachineStat where
  isUniform : Bool
  reqPerSlot : UInt64
  onloadReq : UInt64
  maxReq : UInt64

structure Tally where
  scannedCnt : ℕ
  tmpSlotReq : UInt64
  counters : ℕ → UInt64
  cCounters : ℕ → UInt64
  realCounters : ℕ → UInt64
  realCCounters : ℕ → UInt64
  ttRnicReq : UInt64
  ttCpuReq : UInt64
  machine : ℕ → MachineStat

namespace Tally

/-- The scan of machine `i` starts; the first one of a phase clears the slot totals. -/
def enter (i : ℕ) (t : Tally) : Tally :=
  { t with
    tmpSlotReq := 0
    realCounters := if t.scannedCnt = 0 then fun _ => 0 else t.realCounters
    realCCounters := if t.scannedCnt = 0 then fun _ => 0 else t.realCCounters
    machine := update t.machine i ⟨true, 0, 0, 0⟩ }

/-- Entry `j` holds `v` and `c`; the running sum is reset at every multiple but 0. -/
def entry (i j : ℕ) (v c : UInt64) (t : Tally) : Tally :=
  let m := t.machine i
  let slotReq := t.tmpSlotReq + v
  let atEnd := j ≠ 0 ∧ j % slotGranularity = 0
  { t with
    tmpSlotReq := if atEnd then 0 else slotReq
    counters := update t.counters j (if t.scannedCnt = 0 then v else t.counters j + v)
    cCounters := update t.cCounters j (if t.scannedCnt = 0 then c else t.cCounters j + c)
    realCounters := update t.realCounters (j % maxCounterNum)
      (t.realCounters (j % maxCounterNum) + v)
    realCCounters := update t.realCCounters (j % maxCounterNum)
      (t.realCCounters (j % maxCounterNum) + c)
    ttRnicReq := t.ttRnicReq + v
    ttCpuReq := t.ttCpuReq + c
    machine := update t.machine i
      { m with
        reqPerSlot := m.reqPerSlot + v
        onloadReq := m.onloadReq + c
        maxReq := if atEnd ∧ slotReq > m.maxReq then slotReq else m.maxReq } }

def leave (t : Tally) : Tally := { t with scannedCnt := t.scannedCnt + 1 }

def entries (i : ℕ) (r : Report) (n : ℕ) (t : Tally) : Tally :=
  (List.range n).foldl (fun t j => t.entry i j (r.counters j) (r.cCounters j)) t

def scan (i : ℕ) (r : Report) (t : Tally) : Tally := ((t.enter i).entries i r groupSize).leave

/-- The variables declared anew in each phase; the counters are members of the agent. -/
def newPhase (t : Tally) : Tally := { t with scannedCnt := 0, ttRnicReq := 0, ttCpuReq := 0 }

def reqPerSlot (t : Tally) : UInt64 := (t.ttRnicReq + t.ttCpuReq) / 512

/-- Uniform: the busiest slot has at most twice the average, and nothing is on the CPU. -/
def machineIsUniform (pa : Bool) (t : Tally) (i : ℕ) : Bool :=
  let m := t.machine i
  if m.maxReq > m.reqPerSlot / 8192 * 2 then false
  else if m.onloadReq > 0 ∧ pa = false then false
  else m.isUniform

def isUniform (t : Tally) : Bool :=
  (List.range maxCounterNum).all fun i =>
    !decide (t.realCounters i + t.realCCounters i ≥ t.reqPerSlot * 2)

end Tally

structure CpuTask where
  reqCnt : UInt64
  idx : ℕ
  innerIdx : ℕ

def CpuTask.slot (task : CpuTask) : ℕ := task.idx + task.innerIdx * maxCounterNum

/-- The `std::priority_queue` of the tasks, whose order is that of `req_cnt`. -/
abbrev TaskQueue := MaxQueue.Impl CpuTask fun task => task.reqCnt.toNat

/-- A store to `strategies.credit`, and whether the credit is first saved to `old_strategies`. -/
structure Decision where
  idx : ℕ
  credit : UInt16
  saveOld : Bool

/-- The sub-slots of a cold slot that the RNIC can take back, from the `j`-th on. -/
def coldLoop (saveOld : Bool) (overThres : UInt64) (t : Tally) (i : ℕ) :
    List ℕ → UInt64 → List Decision
  | [], _ => []
  | j :: js, slotResetCnt =>
    let c := t.cCounters (i + j * maxCounterNum)
    if c + slotResetCnt + t.realCounters i < overThres then
      ⟨i + j * maxCounterNum, 0, saveOld⟩ :: coldLoop saveOld overThres t i js (slotResetCnt + c)
    else coldLoop saveOld overThres t i js slotResetCnt

def coldDecisions (saveOld : Bool) (overThres : UInt64) (t : Tally) (i : ℕ) : List Decision :=
  if t.realCounters i ≥ overThres then []
  else coldLoop saveOld overThres t i (List.range slotGranularity) 0

def hotTasks (overThres : UInt64) (t : Tally) (i : ℕ) : List CpuTask :=
  if t.realCounters i ≥ overThres then
    (List.range slotGranularity).filterMap fun j =>
      if t.counters (i + j * maxCounterNum) > 0 then
        some ⟨t.counters (i + j * maxCounterNum), i, j⟩
      else none
  else []

theorem hotTasks_of_lt {thres : UInt64} {t : Tally} {i : ℕ} (h : t.realCounters i < thres) :
    hotTasks thres t i = [] := by
  simp [hotTasks, UInt64.not_le.mpr h]

/-- A task goes to the CPU while it fits its slot's excess, or makes up most of counter `idx`. -/
def takesTask (t : Tally) (onloadNums : ℕ → UInt64) (task : CpuTask) : Bool :=
  task.reqCnt < onloadNums task.idx ||
    decide (task.reqCnt.toFloat > (t.counters task.idx).toFloat * 0.9)

/-- The loop over the tasks; the capacity is checked after one is taken, or before the next. -/
def taskLoop (Q : TaskQueue) (cfg : ServerConfig) (t : Tally) :
    ℕ → ℕ → List CpuTask → (ℕ → UInt64) → UInt64 → List Decision
  | 0, _, _, _, _ => []
  | n + 1, i, tasks, onloadNums, attempts =>
    if i < tasks.length ∧ ¬ (cfg.paEnabled = true ∧ attempts > cfg.totalCpuCap) then
      match Q.pop tasks with
      | none => []
      | some (task, rest) =>
        if takesTask t onloadNums task then
          let attempts := attempts + t.counters task.slot
          ⟨task.slot, 1, !cfg.paEnabled⟩ ::
            if cfg.paEnabled = false ∧ attempts > cfg.totalCpuCap then []
            else taskLoop Q cfg t n (i + 1) rest (update onloadNums task.idx
              (onloadNums task.idx - task.reqCnt)) attempts
        else ⟨task.slot, 0, !cfg.paEnabled⟩ :: taskLoop Q cfg t n (i + 1) rest onloadNums attempts
    else []

/-- Requests from which on a slot is hot; with PCIe atomics more is offloaded. -/
def overThres (cfg : ServerConfig) (t : Tally) : UInt64 :=
  if t.reqPerSlot > (if cfg.paEnabled then cfg.threshold / 2 else cfg.threshold) then t.reqPerSlot
  else cfg.threshold

/-- The credits for a skewed load: cold slots first, then the tasks of the hot ones. -/
def skewedDecisions (Q : TaskQueue) (cfg : ServerConfig) (t : Tally) : List Decision :=
  let thres := overThres cfg t
  let slots := List.range maxCounterNum
  let tasks := slots.flatMap (hotTasks thres t)
  slots.flatMap (coldDecisions (!cfg.paEnabled) thres t) ++
    taskLoop Q cfg t tasks.length 0 tasks (fun i => t.realCounters i - t.reqPerSlot) 0

/-- `onload_sub_slot`, as a share of the granularity. -/
def onloadSubSlot (cfg : ServerConfig) : ℕ :=
  let n := (cfg.totalCpuCap.toFloat / (cfg.totalCpuCap + rnicCapWPa).toFloat * 16).round.toUInt64
  if n.toNat > slotGranularity then 0 else n.toNat

def setCredits (n : ℕ) (credit : UInt16) : List Decision :=
  (List.range n).map fun i => ⟨i, credit, false⟩

/-- What a phase decides. Without PCIe atomics a uniform load is treated like a skewed
one. -/
structure Plan where
  decisions : List Decision
  isUniform : Bool
  machineIsUniform : ℕ → Bool

def makePlan (Q : TaskQueue) (cfg : ServerConfig) (t : Tally) : Plan :=
  if cfg.agentEnabled = false ∨ cfg.threshold = rnicThreshold then
    ⟨setCredits groupSize 0, true, fun i => (t.machine i).isUniform⟩
  else if cfg.threshold = 0 then
    ⟨setCredits groupSize 1, true, fun i => (t.machine i).isUniform⟩
  else
    { decisions :=
        if cfg.paEnabled = true ∧ t.isUniform = true then
          setCredits (maxCounterNum * onloadSubSlot cfg) 1
        else skewedDecisions Q cfg t
      isUniform := t.isUniform
      machineIsUniform := t.machineIsUniform cfg.paEnabled }

theorem makePlan_decisions (Q : TaskQueue) {cfg : ServerConfig} (t : Tally)
    (hag : cfg.agentEnabled = true) (hpa : cfg.paEnabled = false)
    (h1 : cfg.threshold ≠ rnicThreshold) (h0 : cfg.threshold ≠ 0) :
    (makePlan Q cfg t).decisions = skewedDecisions Q cfg t := by
  simp [makePlan, hag, hpa, h1, h0]

end Fusa.Agent
